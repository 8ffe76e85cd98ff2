import WriteBehind.Proofs.Bench.Accounts
import WriteBehind.Proofs.Session.Schedule

/-!
# A bench on its schedule

The producers of a bench take turns, and everything behind the queue runs in between; time passes when no
producer can move. That is one of the runs, and it comes to its end: each move leaves less to be done, and each
time that passes ends a request.
-/

namespace WriteBehind

namespace Session

open Queue (Notice)

variable {name : String → String} {w u : World} {action : Action} {actions : List Action}
  {old : List (Notice AtomId Write)}

/-! ## Forgotten notices -/

def World.behind (old : List (Notice AtomId Write)) (w : World) : World := { w with notices := old ++ w.notices }

theorem World.move_behind (e : Queue.Event AtomId Write) (h : w.move e = some u) :
    (w.behind old).move e = some (u.behind old) := by
  obtain ⟨⟨queue, out⟩, hs, hu⟩ := Option.bind_eq_some_iff.mp h
  cases hu
  unfold World.move World.behind
  show (Queue.step w.queue e).bind _ = _
  rw [hs]
  simp

theorem World.create_behind {a : Atom} (h : w.create a = some u) : (w.behind old).create a = some (u.behind old) := by
  obtain ⟨hfresh, rfl⟩ := World.create_cases h
  unfold World.create
  rw [show (w.behind old).catalog.get? a.id = none from hfresh]
  rfl

theorem World.step_behind (h : World.step name w action = some u) :
    World.step name (w.behind old) action = some (u.behind old) := by
  cases action with
  | node | link => exact create_behind h
  | set id key value =>
    simp only [World.step] at h ⊢
    split at h
    · cases h
      exact if_pos (by assumption)
    · cases h
  | adjust control => cases h; rfl
  | call id command =>
    simp only [World.step] at h ⊢
    split at h
    · exact (if_pos (by assumption)).trans (move_behind _ h)
    · cases h
  | queue e =>
    simp only [World.step] at h ⊢
    split at h
    · exact (if_pos (by assumption)).trans (move_behind _ h)
    · cases h
  | read worker =>
    obtain ⟨request, hr, hu⟩ := Option.bind_eq_some_iff.mp h
    cases hu
    exact Option.bind_eq_some_iff.mpr ⟨request, hr, rfl⟩
  | write worker =>
    obtain ⟨request, hr, hd⟩ := Option.bind_eq_some_iff.mp h
    obtain ⟨draft, hd, hu⟩ := Option.bind_eq_some_iff.mp hd
    exact Option.bind_eq_some_iff.mpr ⟨request, hr, Option.bind_eq_some_iff.mpr ⟨draft, hd, move_behind _ hu⟩⟩

theorem World.run_behind (h : World.run name w actions = some u) :
    World.run name (w.behind old) actions = some (u.behind old) := by
  induction actions generalizing w with
  | nil =>
    obtain rfl := run_nil.mp h
    rfl
  | cons action actions ih =>
    obtain ⟨v, hs, hr⟩ := run_cons.mp h
    exact run_cons.mpr ⟨_, step_behind hs, ih hr⟩

/-! ## Counts -/

theorem step_counts (h : World.step name w action = some u) (hc : ∀ e, action = .queue e → e ≠ .clear) :
    w.queue.counters.duplicates ≤ u.queue.counters.duplicates ∧
      w.queue.counters.drained ≤ u.queue.counters.drained := by
  cases World.step_cases h with
  | called id command _ _ _ moved =>
    exact (Queue.step_tally moved.step (by cases command <;> exact nofun)).counts
  | moved e _ _ _ moved => exact (Queue.step_tally moved.step (hc e rfl)).counts
  | wrote _ _ _ _ _ _ _ _ _ _ moved => exact (Queue.step_tally moved.step nofun).counts
  | _ => exact ⟨Nat.le_refl _, Nat.le_refl _⟩

theorem Reaches.counts (h : Reaches name Action.isStir w u) :
    w.queue.counters.duplicates ≤ u.queue.counters.duplicates ∧
      w.queue.counters.drained ≤ u.queue.counters.drained := by
  obtain ⟨actions, hstirs, hr⟩ := h
  refine World.run_induction (P := fun actions u => (∀ a ∈ actions, a.isStir = true) →
    w.queue.counters.duplicates ≤ u.queue.counters.duplicates ∧
      w.queue.counters.drained ≤ u.queue.counters.drained) ?_ ?_ hr hstirs
  · exact fun _ => ⟨Nat.le_refl _, Nat.le_refl _⟩
  · intro actions v action u _ ih hs hstirs
    obtain ⟨hduplicates, hdrained⟩ := ih fun a ha => hstirs a (List.mem_append_left _ ha)
    have hstir := hstirs action (by simp)
    obtain ⟨hduplicates', hdrained'⟩ := step_counts hs (by rintro e rfl rfl; cases hstir)
    exact ⟨hduplicates.trans hduplicates', hdrained.trans hdrained'⟩

/-! ## Time -/

section
variable {s : Session Memory} {d : Running} {l : List Running}

theorem finish_counts (name : String → String) {r : Stage Memory} (h : Staged (d :: l) r) :
    (Session.finish (Memory.backendNaming name) d r).queue.counters.drained = r.queue.counters.drained + 1 := by
  obtain ⟨drain, c, hw, _⟩ := World.request?_eq_some.mp (h.carries d (by simp))
  have hfinish := Queue.step_finish (s := r.queue) hw
  unfold Session.finish
  rw [carryOut_eq]
  simp only [Queue.Scene.apply, hfinish]
  rfl

theorem pass_counts (name : String → String) {millis : Nat} (h : Staged [] s.stage)
    (due : ∃ d ∈ s.stage.shared.running, d.deadline ≤ s.stage.queue.now + millis * 1000) :
    s.queue.counters.drained + 1 ≤ (s.pass (Memory.backendNaming name) millis).queue.counters.drained := by
  have hgoes : Goes name Action.isStir s.stage (s.stage.apply (.pass (millis * 1000))) :=
    goes_plain (decide_eq_true (by omega)) rfl rfl
  have inner : ∀ action : Action, action.isStir = true → Action.isStir action = true := fun _ hs => hs
  have hstaged := (hgoes [] h).1.due (s.stage.apply (.pass (millis * 1000))).queue.now
  show _ ≤ (s.pass (Memory.backendNaming name) millis).stage.queue.counters.drained
  rw [pass_eq]
  obtain ⟨d, hd, hdeadline⟩ := due
  have hmem : d ∈ dueAt (s.stage.apply (.pass (millis * 1000))).queue.now s.stage.shared.running :=
    List.mem_mergeSort.mpr (List.mem_filter.mpr ⟨hd, decide_eq_true hdeadline⟩)
  rw [show (s.stage.apply (.pass (millis * 1000))).shared.running = s.stage.shared.running from rfl] at hstaged
  cases hdue : dueAt (s.stage.apply (.pass (millis * 1000))).queue.now s.stage.shared.running with
  | nil =>
    rw [hdue] at hmem
    cases hmem
  | cons d ds =>
    rw [hdue] at hstaged
    obtain ⟨hended, _⟩ := hstaged.finish inner name
    obtain ⟨hmoved, hreach⟩ : _ ∧ Reaches name Action.isStir _ _ := goes_runWorker inner (w := d.worker) _ hended
    obtain ⟨_, hreach'⟩ := hmoved.finishAll inner name
    exact (finish_counts name hstaged).symm.trans_le (hreach.trans hreach').counts.2

end

end Session

namespace Bench

open Queue (Begins Coherent Notice Settled)
open Session (Action Command Goes Quiet Reaches Staged World byContent)
open Session.World (ofStage)

variable {luck : Luck} {settings : Settings} {w : Workload} {s t u : State} {d : Desk}
  {old : List (Notice AtomId Write)} {connections : List Connection} {s₀ : Queue.State AtomId Write}

/-! ## What moves behind the producers -/

structure Stirred (luck : Luck) (w : Workload) (s t : State) : Prop where
  run : ∃ ticks, State.run byContent luck w s ticks = some t
  same : t = { s with world := t.world, failed := t.failed }
  duplicates : s.world.queue.counters.duplicates ≤ t.world.queue.counters.duplicates
  drained : s.world.queue.counters.drained ≤ t.world.queue.counters.drained

theorem Stirred.refl (luck : Luck) (w : Workload) (s : State) : Stirred luck w s s :=
  ⟨⟨[], rfl⟩, rfl, Nat.le_refl _, Nat.le_refl _⟩

theorem Stirred.trans (h : Stirred luck w s t) (h' : Stirred luck w t u) : Stirred luck w s u := by
  obtain ⟨ticks, ht⟩ := h.run
  obtain ⟨later, hu⟩ := h'.run
  refine ⟨⟨ticks ++ later, State.run_append.mpr ⟨t, ht, hu⟩⟩, ?_, h.duplicates.trans h'.duplicates,
    h.drained.trans h'.drained⟩
  have hsame := h'.same
  rw [h.same] at hsame
  exact hsame

theorem Stirred.orders (h : Stirred luck w s t) : t.orders = s.orders := by
  rw [h.same]

theorem stir_run (luck : Luck) (w : Workload) {actions : List Action} {world : World}
    (hr : World.run byContent s.world actions = some world)
    (stirs : ∀ a ∈ actions, a.isStir = true) :
    ∃ ticks failed, State.run byContent luck w s ticks = some { s with world, failed } := by
  induction actions generalizing s with
  | nil =>
    obtain rfl := World.run_nil.mp hr
    exact ⟨[], s.failed, rfl⟩
  | cons action actions ih =>
    obtain ⟨v, hs, hr⟩ := World.run_cons.mp hr
    have hstep : State.step byContent luck w s (.stir action) = some { s with
        world := v
        failed := if fails byContent s.world action then s.failed ++ [s.round] else s.failed } := by
      simp only [State.step, stirs action List.mem_cons_self, if_true, hs]
      rfl
    obtain ⟨ticks, failed, hrest⟩ := ih (s := { s with
      world := v
      failed := if fails byContent s.world action then s.failed ++ [s.round] else s.failed }) hr
      fun a ha => stirs a (List.mem_cons_of_mem _ ha)
    exact ⟨.stir action :: ticks, failed, State.run_append.mpr ⟨_, State.run_singleton.mpr hstep, hrest⟩⟩

theorem Reaches.stirred (luck : Luck) (w : Workload) {v u : World} (h : Reaches byContent Action.isStir v u)
    (hs : s.world = v.behind old) :
    ∃ t, Stirred luck w s t ∧ t.world = u.behind old := by
  obtain ⟨hduplicates, hdrained⟩ := h.counts
  obtain ⟨actions, hstirs, hr⟩ := h
  obtain ⟨ticks, failed, ht⟩ := stir_run luck w (hs ▸ World.run_behind hr) hstirs
  refine ⟨_, ⟨⟨ticks, ht⟩, rfl, ?_, ?_⟩, rfl⟩
  · rw [hs]
    exact hduplicates
  · rw [hs]
    exact hdrained

theorem Stirred.kept (hp : 0 < settings.workload.producers)
    (h₀ : Begins settings.session.queue connections s₀) (hk : Kept settings luck s₀ s)
    (h : Stirred luck settings.workload s t) : Kept settings luck s₀ t := by
  obtain ⟨ticks, hr⟩ := h.run
  exact hk.run hp h₀ hr

theorem Kept.coherent (h₀ : Begins settings.session.queue connections s₀) (h : Kept settings luck s₀ s) :
    Coherent s.world.queue := by
  obtain ⟨events, hr, _⟩ := h.ran
  exact h₀.coherent.run hr

theorem Kept.depth (h₀ : Begins settings.session.queue connections s₀) (h : Kept settings luck s₀ s)
    (ending : s.world.queue.tally Queue.Phase.ending = 0) : s.world.queue.depth + s.world.queue.counters.drained +
      s.world.queue.counters.duplicates = s.orders.length := by
  obtain ⟨items, created, ended, _⟩ := h.ran.balanced h₀
  omega

/-! ## Desks -/

/-- A desk shows a bench before the first call or at a moment when nothing can move. The desk may have
forgotten some notices. -/
structure Mirrors (old : List (Notice AtomId Write)) (d : Desk) (s : State) : Prop where
  world : s.world = (ofStage d.session.stage).behind old
  counts : s.counts = d.session.counts
  next : s.next = d.next
  staged : Staged [] d.session.stage
  quiet : Quiet d.session.stage
  ending : d.session.queue.tally Queue.Phase.ending = 0
  settled : d.session.queue.calls ≠ [] → Settled d.session.queue

theorem Mirrors.queue (h : Mirrors old d s) : s.world.queue = d.session.queue := by
  rw [h.world]
  rfl

/-- Whatever has happened behind the callers, everything then moves until nothing can. -/
theorem settles {r : Session.Stage Memory} {session : Session Memory} (n : Nat)
    (hp : 0 < settings.workload.producers) (h₀ : Begins settings.session.queue connections s₀)
    (hk : Kept settings luck s₀ s) (world : s.world = (ofStage r).behind old) (staged : Staged [] r)
    (goes : Goes byContent Action.isStir r session.stage) (quiet : Quiet session.stage)
    (counts : s.counts = session.counts) (next : s.next = n) :
    ∃ t, Stirred luck settings.workload s t ∧
      Mirrors old { session := session.settle Memory.backend, next := n } t ∧
      session.queue.counters.drained ≤ t.world.queue.counters.drained := by
  obtain ⟨hstaged, hreach⟩ := goes [] staged
  obtain ⟨t, ht, hworld⟩ := Reaches.stirred luck settings.workload hreach world
  have hcoherent : Coherent session.queue := by
    have hkept := (ht.kept hp h₀ hk).coherent h₀
    rw [hworld] at hkept
    exact hkept
  obtain ⟨hquiet, hgoes, hsettled⟩ := Session.settle_quiet byContent quiet
  obtain ⟨hstaged', hreach'⟩ := hgoes [] hstaged
  obtain ⟨u, hu, hworld'⟩ := Reaches.stirred luck settings.workload hreach' hworld
  have hstirred := ht.trans hu
  refine ⟨u, hstirred, ⟨hworld', ?_, ?_, hstaged', hquiet, (hsettled hcoherent).ending,
    fun _ => hsettled hcoherent⟩, ?_⟩
  · rw [hstirred.same]
    exact counts
  · rw [hstirred.same]
    exact next
  · have hdrained := hu.drained
    rw [hworld] at hdrained
    exact hdrained

theorem Mirrors.issue (luck : Luck) (hp : 0 < settings.workload.producers)
    (h₀ : Begins settings.session.queue connections s₀) (h : Mirrors old d s) {command : Command}
    {queue : Queue.State AtomId Write} {out : List (Notice AtomId Write)} (allowed : s.world.allows command = true)
    (enabled : Queue.step s.world.queue (command.event s.next) = some (queue, out)) :
    ∃ world, World.step byContent s.world (.call s.next command) = some world ∧
      ∀ t : State, Kept settings luck s₀ t → t.world = world → t.counts = command.count s.counts →
        t.next = s.next + 1 → ∃ u, Stirred luck settings.workload t u ∧
          Mirrors (old ++ d.session.stage.notices) (d.issue command) u := by
  rw [h.queue, h.next] at enabled
  have hforget : ∀ n : List (Notice AtomId Write),
      (ofStage d.session.stage).behind n = (ofStage d.session.forget.stage).behind (n ++ d.session.stage.notices) :=
    fun n => by simp [World.behind, ofStage, Session.forget]
  have hworld : s.world = (ofStage d.session.forget.stage).behind (old ++ d.session.stage.notices) :=
    h.world.trans (hforget old)
  have hallowed : (ofStage d.session.forget.stage).allows command = true := by
    rw [hworld] at allowed
    exact allowed
  have hstaged : Staged [] d.session.forget.stage := h.staged.perm rfl rfl (.refl _)
  obtain ⟨hquiet, hstep, hstaged', hgoes⟩ :=
    Session.issue_quiet byContent (s := d.session.forget) d.next h.quiet hallowed enabled
  have hcall : World.step byContent (World.behind (old ++ d.session.stage.notices) _) _ = _ :=
    World.step_behind hstep
  rw [← hworld, ← h.next] at hcall
  refine ⟨_, hcall, fun t hk ht counts next => ?_⟩
  have hcounts : t.counts = (d.session.forget.issue Memory.backend d.next command).counts := by
    rw [counts, h.counts]
    cases command <;> rfl
  obtain ⟨u, hu, hmirrors, _⟩ :=
    settles (d.next + 1) hp h₀ hk ht (hstaged' hstaged) hgoes hquiet hcounts (next.trans (by rw [h.next]))
  exact ⟨u, hu, hmirrors⟩

theorem Mirrors.busy (h₀ : Begins settings.session.queue connections s₀) (hk : Kept settings luck s₀ s)
    (h : Mirrors old d s) {id : Nat} (waits : d.isWaiting id = true) : d.session.stage.shared.running ≠ [] := by
  intro hnone
  obtain ⟨events, hr, _⟩ := hk.ran
  have hcalm := hk.ran.calm h₀
  rw [h.queue] at hr hcalm
  have hcalling : d.session.queue.calls ≠ [] := by
    intro hcalls
    unfold Desk.isWaiting Queue.State.call? at waits
    rw [hcalls] at waits
    cases waits
  refine hcalling ((h.settled hcalling).nobody_waits h₀ hr (fun n drain c hw => ?_) (fun id conn hphase => ?_))
  · obtain ⟨d', hd', _⟩ := h.staged.manned n _ (World.request?_eq_some.mpr ⟨drain, c, hw, rfl⟩)
    rw [hnone] at hd'
    cases hd'
  · cases hcalm.phases id _ hphase

theorem Mirrors.pass (hp : 0 < settings.workload.producers) (h₀ : Begins settings.session.queue connections s₀)
    (hk : Kept settings luck s₀ s) (h : Mirrors old d s) {id : Nat} (waits : d.isWaiting id = true) :
    ∃ t, Stirred luck settings.workload s t ∧ Mirrors old d.pass t ∧
      t.world.queue.depth < s.world.queue.depth := by
  have hbusy := h.busy h₀ hk waits
  unfold Desk.pass
  cases hmin : (d.session.stage.shared.running.map (·.deadline)).min? with
  | none =>
    rw [List.min?_eq_none_iff, List.map_eq_nil_iff] at hmin
    exact absurd hmin hbusy
  | some deadline =>
    obtain ⟨r, hr, rfl⟩ := List.mem_map.mp (List.min?_mem hmin)
    -- All times are whole milliseconds, so the request is due when the time has passed.
    have hdue : r.deadline ≤ d.session.stage.queue.now + (r.deadline - d.session.queue.now) / 1000 * 1000 := by
      obtain ⟨hnow, hall⟩ := h.staged.timely
      have hdeadline := hall r hr
      show r.deadline ≤ d.session.stage.queue.now + (r.deadline - d.session.stage.queue.now) / 1000 * 1000
      omega
    have hcounts := Session.pass_counts byContent h.staged ⟨r, hr, hdue⟩
    have hgoes : Goes byContent Action.isStir d.session.stage _ :=
      Session.goes_pass (fun _ hs => hs) ((r.deadline - d.session.queue.now) / 1000)
    obtain ⟨t, ht, hmirrors, hdrained⟩ := settles d.next hp h₀ hk h.world h.staged hgoes
      (Session.pass_quiet h.quiet _) h.counts h.next
    refine ⟨t, ht, hmirrors, ?_⟩
    have hbefore := hk.depth h₀ (h.queue ▸ h.ending)
    have hafter := (ht.kept hp h₀ hk).depth h₀ (hmirrors.queue ▸ hmirrors.ending)
    have hduplicates := ht.duplicates
    have hmore := hcounts.trans hdrained
    rw [← h.queue] at hmore
    rw [ht.orders] at hafter
    omega

/-! ## Producers -/

structure Within (luck : Luck) (w : Workload) (s t : State) : Prop where
  run : ∃ ticks, State.run byContent luck w s ticks = some t
  round : t.round = s.round
  fence : t.fence = s.fence
  results : t.results = s.results

theorem Within.refl (luck : Luck) (w : Workload) (s : State) : Within luck w s s := ⟨⟨[], rfl⟩, rfl, rfl, rfl⟩

theorem Within.trans (h : Within luck w s t) (h' : Within luck w t u) : Within luck w s u := by
  obtain ⟨ticks, ht⟩ := h.run
  obtain ⟨later, hu⟩ := h'.run
  exact ⟨⟨ticks ++ later, State.run_append.mpr ⟨t, ht, hu⟩⟩, h'.round.trans h.round, h'.fence.trans h.fence,
    h'.results.trans h.results⟩

theorem Within.kept (hp : 0 < settings.workload.producers) (h₀ : Begins settings.session.queue connections s₀)
    (hk : Kept settings luck s₀ s) (h : Within luck settings.workload s t) : Kept settings luck s₀ t := by
  obtain ⟨ticks, hr⟩ := h.run
  exact hk.run hp h₀ hr

theorem Stirred.within (h : Stirred luck w s t) : Within luck w s t := by
  refine ⟨h.run, ?_, ?_, ?_⟩ <;> rw [h.same]

theorem Stirred.producers (h : Stirred luck w s t) : t.producers = s.producers := by
  rw [h.same]

def State.ahead (s : State) : Nat := (s.producers.map fun p => p.todo.length).sum

/-- What is left in a round: a move may leave an entry that has to drain. -/
def State.load (s : State) : Nat := 2 * s.ahead + s.world.queue.depth

theorem Mirrors.isWaiting (h : Mirrors old d s) (id : Nat) : s.isWaiting id = d.isWaiting id := by
  unfold State.isWaiting Desk.isWaiting
  rw [h.queue]

theorem Mirrors.isBusy (h : Mirrors old d s) (p : Producer) : s.isBusy p = p.call.any d.isWaiting := by
  unfold State.isBusy
  exact congrArg p.call.any (funext h.isWaiting)

theorem Kept.enabled (h₀ : Begins settings.session.queue connections s₀) (hk : Kept settings luck s₀ s)
    (command : Command) (hqueued : command.foreground? = none) :
    ∃ queue out, Queue.step s.world.queue (command.event s.next) = some (queue, out) := by
  have howned := (hk.ran.calm h₀).owned
  have hfresh : (s.world.queue.call? s.next).isSome = false := by
    refine Bool.eq_false_iff.mpr fun hcall => ?_
    exact Nat.lt_irrefl _ (hk.numbered.waiting s.next hcall)
  have hissue : ∀ effect, Queue.issue s.world.queue s.next effect = some effect := by
    intro effect
    unfold Queue.issue
    simp [howned, hfresh]
  cases command with
  | direct | take => cases hqueued
  | _ => exact ⟨_, _, hissue _⟩

theorem ahead_move {p p' : Producer} {m : Move} {before rest : List Producer}
    (split : s.producers = before ++ p :: rest) (next : p.todo = m :: p'.todo)
    (moved : t.producers = before ++ p' :: rest) : t.ahead + 1 = s.ahead := by
  unfold State.ahead
  rw [split, moved]
  simp only [List.map_append, List.map_cons, List.sum_append, List.sum_cons, next, List.length_cons]
  omega

theorem set_middle {α : Type} {l before rest : List α} {a : α} (split : l = before ++ a :: rest) :
    l[before.length]? = some a ∧ ∀ b, l.set before.length b = before ++ b :: rest := by
  constructor <;> simp [split]

theorem Mirrors.set (hk : Kept settings luck s₀ s) (h : Mirrors old d s) {p : Producer}
    {before rest : List Producer} (split : s.producers = before ++ p :: rest) (free : s.isBusy p = false)
    {id : AtomId} {value : Json.Value} {todo : List Move} (next : p.todo = .set id value :: todo) :
    ∃ t, Within luck settings.workload s t ∧
      Mirrors old { d with session := d.session.mapCatalog fun c => c.setValue id valueKey value } t ∧
      t.producers = before ++ { todo } :: rest ∧ t.load < s.load := by
  obtain ⟨present, hset⟩ := set_middle split
  obtain ⟨_, i, hi, _, hm⟩ := hk.booked.todo present (by rw [next]; exact List.mem_cons_self)
  have hid : id = luck.id i := by
    rcases mem_moves hm with hm | hm | hm <;> cases hm
    rfl
  have known : (s.world.catalog.get? id).isSome = true := hid ▸ hk.requested.known i hi
  have hstep : World.step byContent s.world (.set id valueKey value) =
      some { s.world with catalog := s.world.catalog.setValue id valueKey value } := if_pos known
  have hmove : State.step byContent luck settings.workload s (.produce before.length) = some { s with
      world := { s.world with catalog := s.world.catalog.setValue id valueKey value }
      producers := before ++ { todo } :: rest } := by
    simp [State.step, present, free, State.move, next, hstep, hset]
  refine ⟨_, ⟨⟨_, State.run_singleton.mpr hmove⟩, rfl, rfl, rfl⟩, ⟨?_, h.counts, h.next,
    h.staged.perm rfl rfl (.refl _), h.quiet, h.ending, h.settled⟩, rfl, ?_⟩
  · rw [h.world]
    rfl
  · have hahead := ahead_move (t := { s with
      world := { s.world with catalog := s.world.catalog.setValue id valueKey value }
      producers := before ++ { todo } :: rest }) split next rfl
    unfold State.load
    show 2 * _ + s.world.queue.depth < _
    omega

theorem Mirrors.call (hp : 0 < settings.workload.producers) (h₀ : Begins settings.session.queue connections s₀)
    (hk : Kept settings luck s₀ s) (h : Mirrors old d s) {p : Producer} {before rest : List Producer}
    (split : s.producers = before ++ p :: rest) (free : s.isBusy p = false) {command : Command} {todo : List Move}
    (next : p.todo = .call command :: todo) :
    ∃ old' t, Within luck settings.workload s t ∧ Mirrors old' (d.issue command) t ∧
      t.producers = before ++ { todo, call := some d.next } :: rest ∧ t.load < s.load := by
  obtain ⟨present, hset⟩ := set_middle split
  obtain ⟨_, i, hi, _, hm⟩ := hk.booked.todo (m := .call command) present (by rw [next]; exact List.mem_cons_self)
  have hqueued : command.foreground? = none ∧ command.atom? = some (luck.id i) := by
    rcases mem_moves hm with hm | hm | hm <;> cases hm <;> exact ⟨rfl, rfl⟩
  have allowed : s.world.allows command = true := by
    simp [World.allows, hqueued, hk.requested.known i hi]
  obtain ⟨queue, out, henabled⟩ := hk.enabled h₀ command hqueued.1
  obtain ⟨world, hcall, hrest⟩ := h.issue luck hp h₀ allowed henabled
  obtain ⟨hduplicates, hdrained⟩ := Session.step_counts hcall fun e he => by cases he
  have hmove : State.step byContent luck settings.workload s (.produce before.length) = some { s with
      world
      counts := command.count s.counts
      next := s.next + 1
      producers := before ++ { todo, call := some d.next } :: rest
      orders := s.orders ++ [{ round := s.round, producer := before.length, command }] } := by
    simp [State.step, present, free, State.move, next, State.issue, hcall, hset, ← h.next]
  obtain ⟨u, hu, hmirrors⟩ := hrest _ (hk.step hp h₀ hmove) rfl rfl rfl
  have hwithin : Within luck settings.workload s u :=
    .trans ⟨⟨_, State.run_singleton.mpr hmove⟩, rfl, rfl, rfl⟩ hu.within
  have hproducers : u.producers = before ++ { todo, call := some d.next } :: rest := by rw [hu.producers]
  refine ⟨_, u, hwithin, hmirrors, hproducers, ?_⟩
  -- One order more is outstanding at most, or has been folded into another write, or has drained.
  have hahead := ahead_move split next hproducers
  have hbefore := hk.depth h₀ (h.queue ▸ h.ending)
  have hafter := (hwithin.kept hp h₀ hk).depth h₀ (hmirrors.queue ▸ hmirrors.ending)
  have hduplicates' := hduplicates.trans hu.duplicates
  have hdrained' := hdrained.trans hu.drained
  rw [hu.orders, List.length_append, List.length_singleton] at hafter
  unfold State.load
  omega

theorem Mirrors.move (hp : 0 < settings.workload.producers) (h₀ : Begins settings.session.queue connections s₀)
    (hk : Kept settings luck s₀ s) (h : Mirrors old d s) {p : Producer} {before rest : List Producer}
    (split : s.producers = before ++ p :: rest) (moved : (p.move d).1 = true) :
    ∃ old' t, Within luck settings.workload s t ∧ Mirrors old' (p.move d).2.2 t ∧
      t.producers = before ++ (p.move d).2.1 :: rest ∧ t.load < s.load := by
  unfold Producer.move at moved ⊢
  split at moved
  · cases moved
  · rename_i hfree
    rw [if_neg hfree]
    have free : s.isBusy p = false := (h.isBusy p).trans (by simpa using hfree)
    split at moved
    · cases moved
    · rename_i next
      exact ⟨old, h.set hk split free next⟩
    · rename_i next
      exact h.call hp h₀ hk split free next

theorem move_still {p : Producer} (still : (p.move d).1 = false) :
    p.move d = (false, p, d) ∧ (p.todo = [] ∨ ∃ id, p.call = some id ∧ d.isWaiting id = true) := by
  unfold Producer.move at still
  split at still
  · rename_i busy
    refine ⟨if_pos busy, .inr ?_⟩
    cases hcall : p.call with
    | none => simp [hcall] at busy
    | some id => exact ⟨id, rfl, by simpa [hcall] using busy⟩
  · rename_i free
    split at still
    · rename_i next
      exact ⟨by simp [Producer.move, free, next], .inl next⟩
    · cases still
    · cases still

theorem turn_cons (p : Producer) (ps : List Producer) (d : Desk) : turn (p :: ps) d =
    ((p.move d).1 || (turn ps (p.move d).2.2).1, (p.move d).2.1 :: (turn ps (p.move d).2.2).2.1,
      (turn ps (p.move d).2.2).2.2) := rfl

theorem Mirrors.all_move (hp : 0 < settings.workload.producers) (h₀ : Begins settings.session.queue connections s₀)
    (hk : Kept settings luck s₀ s) (h : Mirrors old d s) {before ps : List Producer}
    (split : s.producers = before ++ ps) :
    ∃ old' t, Within luck settings.workload s t ∧ Mirrors old' (turn ps d).2.2 t ∧
      t.producers = before ++ (turn ps d).2.1 ∧ t.load ≤ s.load ∧
      ((turn ps d).1 = true → t.load < s.load) ∧
      ((turn ps d).1 = false → turn ps d = (false, ps, d) ∧ ∀ p ∈ ps, (p.move d).1 = false) := by
  induction ps generalizing before s d old with
  | nil =>
    exact ⟨old, s, .refl _ _ s, h, split, Nat.le_refl _, nofun, fun _ => ⟨rfl, nofun⟩⟩
  | cons p rest ih =>
    rw [turn_cons]
    cases hm : (p.move d).1 with
    | true =>
      obtain ⟨old₁, t₁, hwithin, hmirrors, hproducers, hload⟩ := h.move hp h₀ hk split hm
      obtain ⟨old₂, t₂, hwithin', hmirrors', hproducers', hload', _⟩ :=
        ih (hwithin.kept hp h₀ hk) hmirrors (hproducers.trans (List.append_cons before _ rest))
      refine ⟨old₂, t₂, hwithin.trans hwithin', hmirrors', by simpa using hproducers', by omega, fun _ => by omega,
        fun hf => by cases hf⟩
    | false =>
      obtain ⟨hstill, _⟩ := move_still hm
      obtain ⟨old₂, t₂, hwithin, hmirrors, hproducers, hload, hmoved, hrest⟩ :=
        ih hk h (split.trans (List.append_cons before p rest))
      rw [hstill]
      refine ⟨old₂, t₂, hwithin, hmirrors, by simpa using hproducers, hload, hmoved, fun hf => ?_⟩
      obtain ⟨hturn, hall⟩ := hrest hf
      refine ⟨by rw [hturn]; rfl, fun q hq => ?_⟩
      rcases List.mem_cons.mp hq with rfl | hq
      · exact hm
      · exact hall q hq

theorem Mirrors.all_done (hp : 0 < settings.workload.producers) (h₀ : Begins settings.session.queue connections s₀)
    (hk : Kept settings luck s₀ s) (h : Mirrors old d s) {n : Nat} (hn : s.load < n) :
    ∃ old' t, Within luck settings.workload s t ∧ Mirrors old' (turns n s.producers d) t ∧ t.isDone = true := by
  induction n generalizing s d old with
  | zero => omega
  | succ n ih =>
    obtain ⟨old₁, t₁, hwithin, hmirrors, hproducers, _, hless, hstill⟩ :=
      h.all_move hp h₀ hk (List.nil_append _).symm
    unfold turns
    cases hm : (turn s.producers d).1 with
    | true =>
      obtain ⟨old₂, t₂, hwithin', hmirrors', hdone⟩ :=
        ih (hwithin.kept hp h₀ hk) hmirrors (by have := hless hm; omega)
      rw [show t₁.producers = (turn s.producers d).2.1 from hproducers] at hmirrors'
      generalize turn s.producers d = turned at hm hmirrors'
      obtain ⟨_, ps, d'⟩ := turned
      cases hm
      exact ⟨old₂, t₂, hwithin.trans hwithin', hmirrors', hdone⟩
    | false =>
      obtain ⟨hturn, hall⟩ := hstill hm
      rw [hturn]
      dsimp only
      split
      · rename_i hdone
        refine ⟨old, s, .refl _ _ s, h, ?_⟩
        unfold State.isDone
        simpa only [h.isBusy] using hdone
      · rename_i hdone
        -- Some producer waits, or else all of them would be done.
        obtain ⟨id, hwaits⟩ : ∃ id, d.isWaiting id = true := by
          by_contra hnone
          refine hdone (List.all_eq_true.mpr fun p hp => ?_)
          rcases (move_still (hall p hp)).2 with htodo | ⟨id, _, hw⟩
          · cases hcall : p.call with
            | none => simp [htodo]
            | some id =>
              have hfree : d.isWaiting id = false := by
                by_contra hw
                exact hnone ⟨id, by simpa using hw⟩
              simp [htodo, hfree]
          · exact absurd ⟨id, hw⟩ hnone
        obtain ⟨t, ht, hmirrors', hdepth⟩ := h.pass hp h₀ hk hwaits
        have hload : t.load < n := by
          unfold State.load State.ahead at hn ⊢
          rw [ht.producers]
          omega
        obtain ⟨old₂, t₂, hwithin', hmirrors'', hdone'⟩ := ih (ht.kept hp h₀ hk) hmirrors' hload
        rw [ht.producers] at hmirrors''
        exact ⟨old₂, t₂, ht.within.trans hwithin', hmirrors'', hdone'⟩

/-! ## Rounds -/

theorem Mirrors.awaited (hp : 0 < settings.workload.producers) (h₀ : Begins settings.session.queue connections s₀)
    (hk : Kept settings luck s₀ s) (h : Mirrors old d s) (call : Nat) {n : Nat} (hn : s.world.queue.depth < n) :
    ∃ t, Stirred luck settings.workload s t ∧ Mirrors old (await call n d) t ∧ t.isWaiting call = false := by
  induction n generalizing s d with
  | zero => omega
  | succ n ih =>
    unfold await
    cases hw : d.isWaiting call with
    | false => exact ⟨s, .refl _ _ s, h, (h.isWaiting call).trans hw⟩
    | true =>
      obtain ⟨t, ht, hmirrors, hdepth⟩ := h.pass hp h₀ hk hw
      obtain ⟨u, hu, hmirrors', hover⟩ := ih (ht.kept hp h₀ hk) hmirrors (by omega)
      exact ⟨u, ht.trans hu, hmirrors', hover⟩

theorem sum_todo (ps : List Producer) :
    ps.foldr (fun p n => p.todo.length + n) 0 = (ps.map fun p => p.todo.length).sum := by
  induction ps with
  | nil => rfl
  | cons p ps ih => rw [List.foldr_cons, ih, List.map_cons, List.sum_cons]

theorem complete_eq (d : Desk) (command : Command) : d.complete command =
    ((await d.next ((d.issue command).session.queue.depth + 1) (d.issue command)).result d.next,
      await d.next ((d.issue command).session.queue.depth + 1) (d.issue command)) := rfl

theorem Mirrors.notices (h : Mirrors old d s) : s.world.notices = old ++ d.session.stage.notices := by
  rw [h.world]
  rfl

theorem Mirrors.result {d' : Desk} (hk : Kept settings luck s₀ s) (h : Mirrors old d s)
    (h' : Mirrors (old ++ d.session.stage.notices) d' t) :
    (returned? d.next t.world.notices).getD (.ok ()) = d'.result d.next := by
  rw [h'.notices, returned?_append, ← h.notices,
    returned?_eq_none fun r hm => Nat.lt_irrefl _ (h.next ▸ hk.numbered.told _ r hm)]
  rfl

theorem Mirrors.complete (hp : 0 < settings.workload.producers) (h₀ : Begins settings.session.queue connections s₀)
    (hk : Kept settings luck s₀ s) (h : Mirrors old d s) (early : s.round < settings.workload.rounds)
    (free : s.fence = none) (done : s.isDone = true) :
    ∃ old' t, (∃ ticks, State.run byContent luck settings.workload s ticks = some t) ∧
      Mirrors old' (d.complete .barrier).2 t ∧ t.round = s.round + 1 ∧ t.fence = none ∧
      t.producers = crew luck settings.workload t.round ∧ t.world.queue.depth = 0 ∧
      t.results = s.results ++ [(d.complete .barrier).1] := by
  obtain ⟨queue, out, henabled⟩ := hk.enabled h₀ .barrier rfl
  obtain ⟨world, hcall, hrest⟩ := h.issue luck hp h₀ (by rfl) henabled
  have hfence : State.step byContent luck settings.workload s .fence = some { s with
      world, next := s.next + 1, fence := some s.next } := by
    have hcond : s.round < settings.workload.rounds ∧ s.fence.isNone ∧ s.isDone :=
      ⟨early, by rw [free]; rfl, done⟩
    simp only [State.step, if_pos hcond, State.issue, hcall]
    rfl
  have hk₁ := hk.step hp h₀ hfence
  obtain ⟨t₁, ht₁, hmirrors₁⟩ := hrest _ hk₁ rfl rfl rfl
  have hdepth : t₁.world.queue.depth < (d.issue .barrier).session.queue.depth + 1 := by
    rw [hmirrors₁.queue]
    exact Nat.lt_succ_self _
  obtain ⟨t₂, ht₂, hmirrors₂, hover⟩ := hmirrors₁.awaited hp h₀ (ht₁.kept hp h₀ hk₁) d.next hdepth
  rw [complete_eq]
  generalize await d.next ((d.issue .barrier).session.queue.depth + 1) (d.issue .barrier) = d₂ at hmirrors₂
  have hstirred := ht₁.trans ht₂
  have hwaits : t₂.fence = some d.next := by rw [hstirred.within.fence, ← h.next]
  have hround : t₂.round = s.round := hstirred.within.round
  have hresults : t₂.results = s.results := hstirred.within.results
  obtain ⟨_, _, hempty, _⟩ :=
    (hstirred.kept hp h₀ hk₁).stage.returned hwaits (by simpa [State.isWaiting] using hover)
  have hproceed : State.step byContent luck settings.workload t₂ .proceed = some { t₂ with
      round := s.round + 1
      producers := crew luck settings.workload (s.round + 1)
      fence := none
      results := s.results ++ [d₂.result d.next] } := by
    simp [State.step, hwaits, hover, hround, hresults, h.result hk hmirrors₂]
  obtain ⟨ticks, hticks⟩ := hstirred.run
  have hrun := State.run_append.mpr ⟨_, State.run_singleton.mpr hfence,
    State.run_append.mpr ⟨_, hticks, State.run_singleton.mpr hproceed⟩⟩
  exact ⟨_, _, ⟨_, hrun⟩,
    ⟨hmirrors₂.world, hmirrors₂.counts, hmirrors₂.next, hmirrors₂.staged, hmirrors₂.quiet,
      hmirrors₂.ending, hmirrors₂.settled⟩, rfl, rfl, rfl, congrArg List.length hempty, rfl⟩

theorem Mirrors.round (hp : 0 < settings.workload.producers) (h₀ : Begins settings.session.queue connections s₀)
    (hk : Kept settings luck s₀ s) (h : Mirrors old d s) (early : s.round < settings.workload.rounds)
    (free : s.fence = none) (crew : s.producers = producers luck settings.workload s.round)
    (empty : s.world.queue.depth = 0) :
    ∃ old' t, (∃ ticks, State.run byContent luck settings.workload s ticks = some t) ∧
      Mirrors old' (d.round luck settings.workload s.round).2 t ∧ t.round = s.round + 1 ∧ t.fence = none ∧
      t.producers = Bench.crew luck settings.workload t.round ∧ t.world.queue.depth = 0 ∧
      t.results = s.results ++ [(d.round luck settings.workload s.round).1] := by
  have hload : s.load < 2 * s.producers.foldr (fun p n => p.todo.length + n) 0 + 2 := by
    rw [sum_todo]
    unfold State.load State.ahead
    omega
  obtain ⟨old₁, t₁, hwithin, hmirrors, hdone⟩ := h.all_done hp h₀ hk hload
  obtain ⟨old₂, t₂, ⟨ticks₂, hticks₂⟩, hrest⟩ := hmirrors.complete hp h₀ (hwithin.kept hp h₀ hk)
    (hwithin.round ▸ early) (hwithin.fence.trans free) hdone
  obtain ⟨ticks₁, hticks₁⟩ := hwithin.run
  rw [hwithin.round, hwithin.results, crew] at hrest
  exact ⟨old₂, t₂, ⟨ticks₁ ++ ticks₂, State.run_append.mpr ⟨t₁, hticks₁, hticks₂⟩⟩, hrest⟩

theorem rounds_succ (timing : Timing) (left round failed : Nat) (d : Desk) :
    (rounds luck timing w (left + 1) round failed d).2 =
      (rounds luck timing w left (round + 1)
        (if (d.round luck w round).1.isOk then failed else failed + 1) (d.round luck w round).2).2 := by
  rw [rounds]

theorem Mirrors.rounds (hp : 0 < settings.workload.producers) (h₀ : Begins settings.session.queue connections s₀)
    (timing : Timing) {left : Nat} (failed : Nat) (hk : Kept settings luck s₀ s) (h : Mirrors old d s)
    (hleft : left + s.round = settings.workload.rounds) (free : s.fence = none)
    (crew : s.producers = Bench.crew luck settings.workload s.round) (empty : s.world.queue.depth = 0) :
    ∃ old' t, (∃ ticks, State.run byContent luck settings.workload s ticks = some t) ∧
      Mirrors old' (Bench.rounds luck timing settings.workload left s.round failed d).2.2 t ∧
      t.round = settings.workload.rounds ∧
      (Bench.rounds luck timing settings.workload left s.round failed d).2.1 + s.results.countP (fun r => !r.isOk) =
        failed + t.results.countP fun r => !r.isOk := by
  induction left generalizing s d old failed with
  | zero => exact ⟨old, s, ⟨[], rfl⟩, h, (Nat.zero_add _).symm.trans hleft, rfl⟩
  | succ left ih =>
    have early : s.round < settings.workload.rounds := by omega
    have hproducers : s.producers = producers luck settings.workload s.round := by
      rw [crew]
      exact if_pos early
    obtain ⟨old₁, t, ⟨ticks, hticks⟩, hmirrors, hround, hfree, hcrew, hempty, hresults⟩ :=
      h.round hp h₀ hk early free hproducers empty
    rw [rounds_succ]
    generalize d.round luck settings.workload s.round = ended at hmirrors hresults
    obtain ⟨result, d'⟩ := ended
    obtain ⟨old₂, u, ⟨later, hlater⟩, hmirrors', hover, hcount⟩ :=
      ih (if result.isOk then failed else failed + 1) (hk.run hp h₀ hticks) hmirrors (by omega) hfree hcrew hempty
    rw [hround] at hmirrors' hcount
    refine ⟨old₂, u, ⟨ticks ++ later, State.run_append.mpr ⟨t, hticks, hlater⟩⟩, hmirrors', hover, ?_⟩
    rw [hresults, List.countP_append, List.countP_singleton] at hcount
    cases hok : result.isOk <;> simp only [hok] at hcount ⊢ <;> simp at hcount ⊢ <;> omega

theorem mirrors_start {since : Int} (opened : settings.open? luck since = .ok d) :
    Mirrors [] d (.start luck settings.workload d) := by
  obtain ⟨connections, h₀⟩ := (Bench.opened opened).begins
  obtain ⟨session, store, hs, rfl⟩ := open_cases opened
  have hshared := (Session.start_fresh hs).shared
  have hfresh : session.queue.calls = [] ∧ session.queue.tally Queue.Phase.ending = 0 := by
    obtain ⟨_, _, _, hs₀⟩ := h₀.eq
    rw [show session.queue = _ from hs₀]
    exact ⟨rfl, by simp [Queue.State.tally, Queue.Phase.ending]⟩
  exact ⟨rfl, rfl, rfl, (Session.start_staged hs).perm rfl rfl (.refl _),
    congrArg Session.Backstage.foreground hshared, hfresh.2, fun hcalls => absurd hfresh.1 hcalls⟩

/-- A bench on its schedule is a run up to its report. -/
theorem rounds_run {since : Int} (timing : Timing) (opened : settings.open? luck since = .ok d)
    (hp : 0 < settings.workload.producers) :
    ∃ ticks t, State.run byContent luck settings.workload (.start luck settings.workload d) ticks = some t ∧
      t.round = settings.workload.rounds ∧
      (rounds luck timing settings.workload settings.workload.rounds 0 0 d).2.1 =
        t.results.countP (fun r => !r.isOk) ∧
      (rounds luck timing settings.workload settings.workload.rounds 0 0 d).2.2.session.counts = t.counts ∧
      (rounds luck timing settings.workload settings.workload.rounds 0 0 d).2.2.session.queue = t.world.queue ∧
      (rounds luck timing settings.workload settings.workload.rounds 0 0 d).2.2.session.store = t.world.store := by
  obtain ⟨connections, h₀⟩ := (Bench.opened opened).begins
  have hempty : (State.start luck settings.workload d).world.queue.depth = 0 := by
    obtain ⟨_, _, _, hs⟩ := h₀.eq
    rw [hs]
    rfl
  obtain ⟨_, t, ⟨ticks, hticks⟩, hmirrors, hround, hfailed⟩ :=
    (mirrors_start opened).rounds hp h₀ timing 0 (kept_start opened) (Nat.add_zero _) rfl rfl hempty
  refine ⟨ticks, t, hticks, hround, ?_, hmirrors.counts.symm, hmirrors.queue.symm, ?_⟩
  · exact hfailed.trans (Nat.zero_add _)
  · rw [hmirrors.world]
    rfl

end Bench

end WriteBehind
