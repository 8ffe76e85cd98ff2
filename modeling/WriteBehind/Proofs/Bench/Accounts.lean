import WriteBehind.Proofs.Bench.Documents

/-!
# Accounts of a bench

All that is known of a bench holds from the opening of its session to its report, whatever the interleaving.
When the rounds are over nothing is outstanding, and the statistics add up to the workload.
-/

namespace WriteBehind.Bench

open Queue (Begins)
open Session (Action Opens World)

variable {name : String → String} {luck : Luck} {s t : State} {tick : Tick} {ticks : List Tick}
  {settings : Settings} {connections : List Connection} {s₀ : Queue.State AtomId Write} {since : Int} {d : Desk}

/-! ## Between the opening and the report -/

/-- What is known of a bench at every moment. -/
structure Kept (settings : Settings) (luck : Luck) (s₀ : Queue.State AtomId Write) (s : State) : Prop where
  booked : Booked luck settings.workload s
  counted : Counted s
  ran : Ran luck settings.workload s₀ s
  requested : Requested luck settings.workload settings.failEvery s
  numbered : Numbered s
  stage : Stage settings.workload s
  reported : Reported s

theorem Kept.step (hp : 0 < settings.workload.producers) (h₀ : Begins settings.session.queue connections s₀)
    (h : Kept settings luck s₀ s) (hs : State.step name luck settings.workload s tick = some t) :
    Kept settings luck s₀ t where
  booked := h.booked.step hp hs
  counted := h.counted.step h.booked hs
  ran := h.ran.step h₀ h.booked hs
  requested := h.requested.step h₀ h.ran h.booked hs
  numbered := h.numbered.step h.booked hs
  stage := h.stage.step h₀ h.ran h.booked h.numbered h.reported hs
  reported := h.reported.step h.stage hs

theorem Kept.run (hp : 0 < settings.workload.producers) (h₀ : Begins settings.session.queue connections s₀)
    (h : Kept settings luck s₀ s) (hr : State.run name luck settings.workload s ticks = some t) :
    Kept settings luck s₀ t :=
  State.run_induction h (fun _ _ _ hk hs => hk.step hp h₀ hs) hr

theorem kept_start (h : settings.open? luck since = .ok d) :
    Kept settings luck (State.start luck settings.workload d).world.queue (.start luck settings.workload d) :=
  have hopened := opened h
  ⟨booked_start luck _ d, hopened.counted, hopened.ran, hopened.requested, hopened.numbered, hopened.stage rfl,
    reported_start luck _ d⟩

/-! ## The end -/

theorem Stage.late {w : Workload} (h : Stage w s) (late : s.round = w.rounds) :
    s.world.queue.buffer.outstanding = [] ∧ s.round ∉ s.failed := by
  cases h with
  | finished _ _ _ empty _ sound => exact ⟨empty, sound⟩
  | producing early | fencing _ early | fenced _ _ early => exact absurd late (Nat.ne_of_lt early)

structure Balanced (s : State) : Prop where
  items : s.world.queue.counters.items = s.orders.length
  created : s.world.queue.counters.items = s.world.queue.counters.duplicates + s.world.queue.buffer.last.val
  ended : s.world.queue.counters.drained + s.world.queue.depth =
    s.world.queue.tally Queue.Phase.ending + s.world.queue.buffer.last.val
  failed : s.world.queue.counters.failed =
    s.world.queue.tally Queue.Phase.failing + Queue.failedDrains s.world.notices

theorem Ran.balanced {config : QueueConfig} {w : Workload} (h₀ : Begins config connections s₀)
    (h : Ran luck w s₀ s) : Balanced s := by
  obtain ⟨items, created, ended, failed, _⟩ := h.accounted h₀
  have hending := h₀.tally (f := Queue.Phase.ending) rfl
  have hfailing := h₀.tally (f := Queue.Phase.failing) rfl
  obtain ⟨_, _, _, _, _, _⟩ :
      s₀.counters.items = 0 ∧ s₀.counters.duplicates = 0 ∧ s₀.counters.drained = 0 ∧
      s₀.counters.failed = 0 ∧ s₀.depth = 0 ∧ s₀.buffer.last.val = 0 := by
    obtain ⟨_, _, _, rfl⟩ := h₀.eq
    exact ⟨rfl, rfl, rfl, rfl, rfl, rfl⟩
  constructor <;> omega

theorem Balanced.empty (h : Balanced s) (hq : Queue.Tended s.world.queue)
    (empty : s.world.queue.buffer.outstanding = []) :
    s.world.queue.counters.items = s.world.queue.counters.duplicates + s.world.queue.counters.drained ∧
      s.world.queue.depth = 0 ∧ s.world.queue.counters.failed = Queue.failedDrains s.world.notices := by
  have idle := Tended.idle hq empty
  have hending := Queue.tally_of_idle (f := Queue.Phase.ending) idle fun ph hn => by
    cases ph <;> first | rfl | cases hn
  have hfailing := Queue.tally_of_idle (f := Queue.Phase.failing) idle fun ph hn => by
    cases ph <;> first | rfl | cases hn
  have hdepth : s.world.queue.depth = 0 := congrArg List.length empty
  obtain ⟨items, created, ended, failed⟩ := h
  refine ⟨?_, hdepth, ?_⟩ <;> omega

/-- The accounts of a bench at its report, beside the rounds of the requests that failed. -/
structure Accounts (s : Settings) (counts : CallCounts) (q : Snapshot) (results : List (Except Error Unit))
    (failed : List Nat) : Prop where
  stores : counts.stores = s.workload.atoms * s.workload.rounds
  valueStores : counts.valueStores ≤ s.workload.atoms * s.workload.rounds
  items : q.items = counts.stores + counts.valueStores
  duplicates : q.duplicates ≤ q.items
  drained : q.items - q.duplicates = q.drained
  depth : q.gauges.depth = 0
  failures : q.failed = if s.failEvery = 0 then 0 else q.drained / s.failEvery
  requests : failed.length = q.failed
  reports : results.length = s.workload.rounds
  surfaced : ∀ j, (∃ e, results[j]? = some (.error e)) ↔ j ∈ failed
  unclean : (results.countP fun r => !r.isOk) = (List.range s.workload.rounds).countP fun j => decide (j ∈ failed)

theorem countP_places {α : Type} {p : α → Bool} {q : Nat → Bool} {l : List α}
    (h : ∀ j (hj : j < l.length), q j = p l[j]) : l.countP p = (List.range l.length).countP q := by
  induction l using List.reverseRecOn with
  | nil => rfl
  | append_singleton l a ih =>
    have hbefore := ih fun j hj => by
      rw [h j (by rw [List.length_append]; exact Nat.lt_add_right 1 hj), List.getElem_append_left hj]
    have hlast : q l.length = p a := by
      rw [h l.length (by simp), List.getElem_concat_length rfl]
    rw [List.countP_append, List.length_append, List.length_singleton, List.range_succ, List.countP_append,
      hbefore, List.countP_singleton, List.countP_singleton, hlast]

theorem Kept.accounts (h₀ : Begins settings.session.queue connections s₀) (hp : 0 < settings.workload.producers)
    (h : Kept settings luck s₀ s) (late : s.round = settings.workload.rounds) :
    Accounts settings s.counts s.world.queue.snapshot s.results s.failed := by
  obtain ⟨empty, sound⟩ := h.stage.late late
  have hbalanced := h.ran.balanced h₀
  obtain ⟨hentries, hdepth, _⟩ := hbalanced.empty (h.ran.tended h₀) empty
  obtain ⟨hstores, hvalues⟩ := h.counted.complete h.booked hp late
  have hreports : s.results.length = settings.workload.rounds := h.reported.length.trans late
  have hsurfaced : ∀ j, (∃ e, s.results[j]? = some (.error e)) ↔ j ∈ s.failed := by
    intro j
    refine (h.reported.past j).trans (and_iff_right_of_imp fun hj => ?_)
    exact Nat.lt_of_le_of_ne (h.reported.within j hj) fun heq => sound (heq ▸ hj)
  constructor
  case stores => exact hstores
  case valueStores => exact hvalues
  case items => exact hbalanced.items.trans h.counted.all
  case duplicates => exact (Nat.le_add_right _ _).trans_eq hentries.symm
  case drained =>
    show s.world.queue.counters.items - s.world.queue.counters.duplicates = s.world.queue.counters.drained
    rw [hentries, Nat.add_sub_cancel_left]
  case depth => exact hdepth
  case failures =>
    refine h.requested.failed.trans ?_
    split
    · rename_i hk
      rw [hk, Nat.div_zero]
    · rfl
  case requests => exact h.requested.noted
  case reports => exact hreports
  case surfaced => exact hsurfaced
  case unclean =>
    rw [← hreports]
    refine countP_places fun j hj => ?_
    have hj' := hsurfaced j
    rw [List.getElem?_eq_getElem hj] at hj'
    cases hr : s.results[j] with
    | ok => simp_all [Except.isOk, Except.toBool]
    | error => simp_all [Except.isOk, Except.toBool]

theorem recalls_run {w₀ : World} {actions : List Action} (hp : 0 < settings.workload.producers)
    (h₀ : Begins settings.session.queue connections s₀) (h : Kept settings luck s₀ s)
    (hopens : Opens name settings.session w₀) (hd : luck.Distinct settings.workload)
    (recalls : Recalls name luck settings.workload w₀ actions s)
    (hr : State.run name luck settings.workload s ticks = some t) :
    ∃ later, Recalls name luck settings.workload w₀ later t := by
  refine (State.run_induction (P := fun t => Kept settings luck s₀ t ∧
    ∃ later, Recalls name luck settings.workload w₀ later t) ⟨h, actions, recalls⟩ ?_ hr).2
  intro u tick v ⟨hk, later, hrecalls⟩ hs
  obtain ⟨later', hrecalls'⟩ := hrecalls.step hopens (hk.ran.calm h₀) hk.booked hd hp hs
  exact ⟨hk.step hp h₀ hs, later ++ later', hrecalls'⟩

theorem documented (opened : settings.open? luck since = .ok d) (hp : 0 < settings.workload.producers)
    (hr : State.run Session.byContent luck settings.workload (.start luck settings.workload d) ticks = some t)
    (late : t.round = settings.workload.rounds) (sound : settings.failEvery = 0) (some : 0 < settings.workload.rounds)
    (hd : luck.Distinct settings.workload) (distinct : Set.InjOn Session.byContent (luck.documents settings.workload))
    {i : Nat} (hi : i < settings.workload.atoms) :
    t.world.store.contents.document? (luck.id i) = .some (luck.atom i (settings.workload.rounds - 1)).document := by
  obtain ⟨connections, h₀⟩ := (Bench.opened opened).begins
  have hstart := kept_start opened
  have hkept := hstart.run hp h₀ hr
  obtain ⟨w₀, actions, hopens, hrecalls⟩ := recalls_start opened hd hp
  obtain ⟨later, hrecalls⟩ := recalls_run hp h₀ hstart hopens hd hrecalls hr
  obtain ⟨empty, _⟩ := hkept.stage.late late
  refine hrecalls.document hopens distinct hi late some empty ?_
  have hfailed := ((hkept.ran.balanced h₀).empty (hkept.ran.tended h₀) empty).2.2
  rw [← hfailed, hkept.requested.failed, sound, Nat.div_zero]

end WriteBehind.Bench
