import WriteBehind.Proofs.Queue.Rounds
import WriteBehind.Proofs.Session.Requests

/-!
# Sessions on their schedule

What a session does on its schedule is a run: a worker that begins a store which takes no time reads the
atoms, carries the request out and ends the store in one go, and a store that takes its time is carried
out at its deadline. So what holds after every run holds of a session that is driven by its schedule.
-/

namespace WriteBehind.Session

open Memory (backendNaming)
open Queue (Notice Outcome Scene)
open World (ofStage)

variable {name : String → String} {kind : Action → Bool} {r r' r'' : Stage Memory} {w n : Nat} {l : List Running}
  {e : Queue.Event AtomId Write} {queue : Queue.State AtomId Write} {out : List (Notice AtomId Write)}
  {action : Action} {request : Write}

def Reaches (name : String → String) (kind : Action → Bool) (w u : World) : Prop :=
  ∃ actions, (∀ a ∈ actions, kind a = true) ∧ World.run name w actions = some u

theorem Reaches.refl (name : String → String) (kind : Action → Bool) (w : World) : Reaches name kind w w :=
  ⟨[], by simp, rfl⟩

theorem Reaches.trans {w v u : World} (h : Reaches name kind w v) (h' : Reaches name kind v u) :
    Reaches name kind w u := by
  obtain ⟨actions, hkind, hv⟩ := h
  obtain ⟨later, hkind', hu⟩ := h'
  refine ⟨actions ++ later, fun a ha => ?_, World.run_append.mpr ⟨v, hv, hu⟩⟩
  exact (List.mem_append.mp ha).elim (hkind a) (hkind' a)

theorem Reaches.step {w u : World} (hk : kind action = true) (h : World.step name w action = some u) :
    Reaches name kind w u :=
  ⟨[action], by simpa using hk, World.run_singleton.mpr h⟩

/-- The requests that are under way, and some more, are those of the workers that carry one out, each of them
once. Nobody writes past the queue, and all times are whole milliseconds. -/
structure Staged (l : List Running) (r : Stage Memory) : Prop where
  carries : ∀ d ∈ l ++ r.shared.running, (ofStage r).request? d.worker = some d.write
  distinct : ((l ++ r.shared.running).map (·.worker)).Nodup
  manned : ∀ n request, (ofStage r).request? n = some request → ∃ d ∈ l ++ r.shared.running, d.worker = n
  timely : r.queue.now % 1000 = 0 ∧ ∀ d ∈ l ++ r.shared.running, d.deadline % 1000 = 0
  indirect : ∀ id f, r.shared.foreground.get? id = some f → f = .keeping ∨ f = .done

def Goes (name : String → String) (kind : Action → Bool) (r r' : Stage Memory) : Prop :=
  ∀ l, Staged l r → Staged l r' ∧ Reaches name kind (ofStage r) (ofStage r')

theorem Goes.refl (name : String → String) (kind : Action → Bool) (r : Stage Memory) : Goes name kind r r :=
  fun _ h => ⟨h, .refl name kind _⟩

theorem Goes.trans (h : Goes name kind r r') (h' : Goes name kind r' r'') : Goes name kind r r'' := by
  intro l hr
  obtain ⟨hr', hreach⟩ := h l hr
  obtain ⟨hr'', hreach'⟩ := h' l hr'
  exact ⟨hr'', hreach.trans hreach'⟩

def anyAction (_ : Action) : Bool := true

/-! ## Steps of the queue -/

def isSlight : Queue.Event AtomId Write → Bool
  | .work _ | .finish .. => false
  | .pass micros => decide (micros % 1000 = 0)
  | _ => true

theorem invoked_none {s : Queue.State AtomId Write} (h : Queue.step s e = some (queue, out))
    (hw : ∀ w, e ≠ .work w) : Scene.invoked? out = none := by
  cases Queue.step_cases h with
  | made _ _ _ _ _ _ _ makes => cases makes <;> rfl
  | work w => exact absurd rfl (hw w)
  | look _ _ _ _ _ looks => cases looks <;> rfl
  | _ => rfl

theorem storing_began {s : Queue.State AtomId Write} {drain : Queue.Drain AtomId Write} {c : Connection}
    (h : Queue.step s e = some (queue, out)) (hi : Scene.invoked? out = none)
    (hn : queue.workers[n]? = some (.storing drain c)) : s.workers[n]? = some (.storing drain c) := by
  have hother : ∀ {k : Nat} {ph : Queue.Phase AtomId Write}, (s.workers.set k ph)[n]? = some (.storing drain c) →
      ph ≠ .storing drain c → s.workers[n]? = some (.storing drain c) := by
    intro k ph hset hph
    rw [List.getElem?_set] at hset
    split at hset
    · split at hset
      · exact absurd (Option.some.inj hset) hph
      · cases hset
    · exact hset
  cases Queue.step_cases h with
  | made _ _ _ _ _ _ _ makes => cases makes <;> exact hn
  | work w _ _ works =>
    cases works with
    | begun => cases hi
    | asked | slept => exact hn
    | noted _ outcome => cases outcome <;> exact hother hn nofun
    | _ => exact hother hn nofun
  | finish => exact hother hn nofun
  | look _ _ _ _ _ looks => cases looks <;> exact hn
  | _ => exact hn

theorem now_step {s : Queue.State AtomId Write} (h : Queue.step s e = some (queue, out)) :
    queue.now = s.now ∨ ∃ micros, e = .pass micros ∧ queue.now = s.now + micros := by
  cases Queue.step_cases h with
  | made _ _ _ _ _ _ _ makes => cases makes <;> exact .inl rfl
  | work w _ _ works =>
    cases works with
    | noted _ outcome => cases outcome <;> exact .inl rfl
    | _ => exact .inl rfl
  | look _ _ _ _ _ looks => cases looks <;> exact .inl rfl
  | pass micros => exact .inr ⟨micros, rfl, rfl⟩
  | _ => exact .inl rfl

theorem ofStage_move (hs : Queue.step r.queue e = some (queue, out)) (hi : Scene.invoked? out = none) :
    (ofStage r).move e = some (ofStage { r with queue, notices := r.notices ++ out }) := by
  unfold World.move
  show (Queue.step r.queue e).bind _ = _
  rw [hs]
  simp [hi, ofStage]

theorem goes_move (hs : Queue.step r.queue e = some (queue, out)) (hi : Scene.invoked? out = none)
    (he : ∀ k outcome, e ≠ .finish k outcome) (ht : ∀ micros, e = .pass micros → micros % 1000 = 0)
    (hk : kind action = true) (ha : World.step name (ofStage r) action = (ofStage r).move e) :
    Goes name kind r { r with queue, notices := r.notices ++ out } := by
  intro l h
  have hmove := ofStage_move hs hi
  obtain ⟨out', hm⟩ := World.move_cases hmove
  refine ⟨?_, .step hk (ha.trans hmove)⟩
  constructor
  case carries => exact fun d hd => hm.request (h.carries d hd) (he d.worker)
  case distinct => exact h.distinct
  case manned =>
    intro n request hr
    obtain ⟨drain, c, hw, hitem⟩ := World.request?_eq_some.mp hr
    exact h.manned n request (World.request?_eq_some.mpr ⟨drain, c, storing_began hs hi hw, hitem⟩)
  case timely =>
    refine ⟨?_, h.timely.2⟩
    have hnow := h.timely.1
    obtain hsame | ⟨micros, hmicros, hlater⟩ := now_step hs
    · exact hsame ▸ hnow
    · have hwhole := ht micros hmicros
      show queue.now % 1000 = 0
      omega
  case indirect => exact h.indirect

theorem goes_apply (hs : isSlight e = true) (hk : kind action = true)
    (ha : World.step name (ofStage r) action = (ofStage r).move e) : Goes name kind r (r.apply e) := by
  unfold Scene.apply
  cases hstep : Queue.step r.queue e with
  | none => exact .refl name kind r
  | some effect =>
    obtain ⟨queue, out⟩ := effect
    refine goes_move hstep (invoked_none hstep ?_) ?_ ?_ hk ha
    · rintro w rfl
      cases hs
    · rintro k outcome rfl
      cases hs
    · rintro micros rfl
      exact of_decide_eq_true hs

theorem step_plain (r : Stage Memory) (h : World.isPlain e = true) :
    World.step name (ofStage r) (.queue e) = (ofStage r).move e := if_pos h

theorem goes_plain (hs : isSlight e = true) (hk : kind (.queue e) = true) (h : World.isPlain e = true) :
    Goes name kind r (r.apply e) :=
  goes_apply hs hk (step_plain r h)

/-! ## Requests -/

theorem carryOut_eq (s : Backstage Memory) (write : Write) :
    s.carryOut (backendNaming name) write =
      ((Memory.carryOut name s.store s.catalog write).1,
        { s with store := (Memory.carryOut name s.store s.catalog write).2 }) := rfl

theorem erase_set {k : Nat} (c : Catalog) : (({} : Table Nat Catalog).set k c).erase k = {} := by
  simp [Table.set, Table.erase, Table.put, Table.remove]

theorem begins_storing {s t : Queue.State AtomId Write} {entry : Claimed AtomId Write}
    (hs : Queue.step s (.work w) = some (t, out)) (hi : Scene.invoked? out = some entry) :
    ∃ drain c, s.workers[w]? = some (.ready drain c) ∧ drain.entry = entry ∧
      t = s.setWorker w (.storing drain c.use) := by
  cases Queue.work_cases hs with
  | begun drain c before =>
    cases hi
    exact ⟨drain, c, before, rfl, rfl⟩
  | _ => cases hi

theorem begin_now {s : Backstage Memory} {now : Nat} {entry : Claimed AtomId Write}
    (h : (s.store.receive entry.item).latency.getD 0 = 0) :
    (stores (backendNaming name)).begin s now w entry =
      (some (({ s with store := s.store.receive entry.item }.carryOut (backendNaming name) entry.item).1),
        ({ s with store := s.store.receive entry.item }.carryOut (backendNaming name) entry.item).2) := by
  simp only [stores, Backstage.begin, backendNaming, h]
  rfl

theorem begin_later {s : Backstage Memory} {now : Nat} {entry : Claimed AtomId Write} {millis : Nat}
    (h : (s.store.receive entry.item).latency.getD 0 = millis + 1) :
    (stores (backendNaming name)).begin s now w entry =
      (none, { s with
        store := s.store.receive entry.item
        running := s.running ++
          [{ worker := w, write := entry.item, deadline := now + (millis + 1) * 1000 }] }) := by
  simp only [stores, Backstage.begin, backendNaming, h]

theorem Staged.perm {l' : List Running} (h : Staged l r) (hqueue : r'.queue = r.queue)
    (hforeground : r'.shared.foreground = r.shared.foreground)
    (hp : (l' ++ r'.shared.running).Perm (l ++ r.shared.running)) : Staged l' r' := by
  have hrequests : (ofStage r').request? = (ofStage r).request? := by
    unfold World.request? ofStage
    rw [hqueue]
  constructor
  case carries => exact fun d hd => hrequests ▸ h.carries d (hp.mem_iff.mp hd)
  case distinct => exact (hp.map _).nodup_iff.mpr h.distinct
  case manned =>
    intro n request hr
    obtain ⟨d, hd, hworker⟩ := h.manned n request (hrequests ▸ hr)
    exact ⟨d, hp.mem_iff.mpr hd, hworker⟩
  case timely => exact ⟨hqueue ▸ h.timely.1, fun d hd => h.timely.2 d (hp.mem_iff.mp hd)⟩
  case indirect => exact hforeground ▸ h.indirect

/-! ## Time -/

def finishAll (name : String → String) (due : List Running) (r : Stage Memory) : Stage Memory :=
  due.foldl (fun r e =>
    (Session.finish (backendNaming name) e r).runWorker (stores (backendNaming name)) e.worker) r

def dueAt (now : Nat) (running : List Running) : List Running :=
  (running.filter fun e => decide (e.deadline ≤ now)).mergeSort fun d e => decide (d.deadline ≤ e.deadline)

theorem pass_eq {s : Session Memory} (millis : Nat) : (s.pass (backendNaming name) millis).stage =
    finishAll name (dueAt (s.stage.apply (.pass (millis * 1000))).queue.now s.stage.shared.running)
      { s.stage.apply (.pass (millis * 1000)) with shared := { s.stage.shared with
        running := s.stage.shared.running.filter fun e =>
          !decide (e.deadline ≤ (s.stage.apply (.pass (millis * 1000))).queue.now) } } := by
  unfold Session.pass finishAll dueAt
  simp only [List.partition_eq_filter_filter]
  rfl

/-- Those that are due and those that are left make up those that were under way. -/
theorem Staged.due (h : Staged l r) (now : Nat) : Staged (dueAt now r.shared.running ++ l)
    { r with shared := { r.shared with
      running := r.shared.running.filter fun e => !decide (e.deadline ≤ now) } } := by
  have hparts := List.filter_append_perm (fun e : Running => decide (e.deadline ≤ now)) r.shared.running
  refine h.perm rfl rfl ?_
  refine (((List.mergeSort_perm _ _).append_right l).append_right _).trans ?_
  refine (List.perm_append_comm.append_right _).trans ?_
  rw [List.append_assoc]
  exact hparts.append_left l

/-! ## Stores that begin and end -/

section
variable (inner : ∀ action : Action, action.isStir = true → kind action = true)
include inner

theorem reaches_finish {k : Nat} (hr : (ofStage r).request? k = some request) :
    Reaches name kind (ofStage r)
      (ofStage ({ r with shared := (r.shared.carryOut (backendNaming name) request).2 }.apply
        (.finish k (r.shared.carryOut (backendNaming name) request).1))) := by
  obtain ⟨drain, c, hw, _⟩ := World.request?_eq_some.mp hr
  have hfinish := Queue.step_finish (s := r.queue) hw
  have hfinish' := Queue.step_finish (s := (ofStage r).queue) hw
  have hread : World.step name (ofStage r) (.read k) =
      some { ofStage r with drafts := (ofStage r).drafts.set k r.shared.catalog } := by
    simp only [World.step, hr]
    rfl
  -- Nobody comes in between, so what the worker has read are the atoms as they are.
  refine ⟨[.read k, .write k], ?_, World.run_cons.mpr ⟨_, hread, World.run_singleton.mpr ?_⟩⟩
  · simpa using ⟨inner (.read k) rfl, inner (.write k) rfl⟩
  have hfound : ((ofStage r).drafts.set k r.shared.catalog).get? k = some r.shared.catalog := by
    rw [Table.get?_set, if_pos rfl]
  have hsame : World.request? { ofStage r with drafts := (ofStage r).drafts.set k r.shared.catalog } k =
      some request := hr
  have herased : ((ofStage r).drafts.set k r.shared.catalog).erase k = {} := erase_set r.shared.catalog
  rw [carryOut_eq]
  simp only [World.step, hsame, hfound, bind, Option.bind_some, World.move, Scene.apply, hfinish, hfinish',
    herased]
  rfl

theorem Staged.finish {d : Running} (name : String → String) (h : Staged (d :: l) r) :
    Staged l (Session.finish (backendNaming name) d r) ∧
      Reaches name kind (ofStage r) (ofStage (Session.finish (backendNaming name) d r)) := by
  have hr := h.carries d (by simp)
  refine ⟨?_, reaches_finish inner hr⟩
  obtain ⟨drain, c, hw, _⟩ := World.request?_eq_some.mp hr
  have hlt : d.worker < r.queue.workers.length := (List.getElem?_eq_some_iff.mp hw).1
  have hfinish := Queue.step_finish (s := r.queue) hw
  have hdistinct := h.distinct
  rw [List.cons_append, List.map_cons, List.nodup_cons] at hdistinct
  unfold Session.finish
  rw [carryOut_eq]
  simp only [Scene.apply, hfinish]
  constructor
  case carries =>
    intro d' hd'
    obtain ⟨drain', c', hw', hitem⟩ := World.request?_eq_some.mp (h.carries d' (List.mem_cons_of_mem d hd'))
    refine World.request?_eq_some.mpr
      ⟨drain', c', Queue.storing_lasts (hfinish _) hw' fun outcome heq => ?_, hitem⟩
    -- No other request is carried out by this worker.
    have hk : d.worker = d'.worker := (Queue.Event.finish.inj heq).1
    exact hdistinct.1 (hk ▸ List.mem_map_of_mem hd')
  case distinct => exact hdistinct.2
  case manned =>
    intro n request hn
    obtain ⟨drain', c', hw', hitem⟩ := World.request?_eq_some.mp hn
    have hw' : (r.queue.workers.set d.worker _)[n]? = some (.storing drain' c') := hw'
    by_cases hk : d.worker = n
    · subst hk
      rw [List.getElem?_set_self hlt] at hw'
      cases hw'
    · rw [List.getElem?_set_ne hk] at hw'
      obtain ⟨d', hd', hworker⟩ := h.manned n request (World.request?_eq_some.mpr ⟨drain', c', hw', hitem⟩)
      refine ⟨d', (List.mem_cons.mp hd').resolve_left ?_, hworker⟩
      rintro rfl
      exact hk hworker
  case timely => exact ⟨h.timely.1, fun d' hd' => h.timely.2 d' (List.mem_cons_of_mem d hd')⟩
  case indirect => exact h.indirect

theorem Staged.begin {entry : Claimed AtomId Write} (name : String → String) (h : Staged l r)
    (hs : Queue.step r.queue (.work w) = some (queue, out)) (hi : Scene.invoked? out = some entry)
    (deadline : Nat) (hd : deadline % 1000 = 0) :
    Staged ({ worker := w, write := entry.item, deadline } :: l) { r with
        queue, notices := r.notices ++ out,
        shared := { r.shared with store := r.shared.store.receive entry.item } } ∧
      Reaches name kind (ofStage r) (ofStage { r with
        queue, notices := r.notices ++ out,
        shared := { r.shared with store := r.shared.store.receive entry.item } }) := by
  obtain ⟨drain, c, hready, rfl, rfl⟩ := begins_storing hs hi
  have hlt : w < r.queue.workers.length := (List.getElem?_eq_some_iff.mp hready).1
  have hself : (r.queue.setWorker w (.storing drain c.use)).workers[w]? = some (.storing drain c.use) := by
    simp [Queue.State.setWorker, hlt]
  constructor
  · constructor
    case carries =>
      intro d hd
      rcases List.mem_cons.mp hd with rfl | hd
      · exact World.request?_eq_some.mpr ⟨drain, c.use, hself, rfl⟩
      · obtain ⟨drain', c', hw', hitem⟩ := World.request?_eq_some.mp (h.carries d hd)
        exact World.request?_eq_some.mpr ⟨drain', c', Queue.storing_lasts hs hw' (by simp), hitem⟩
    case distinct =>
      rw [List.cons_append, List.map_cons, List.nodup_cons]
      refine ⟨fun hm => ?_, h.distinct⟩
      obtain ⟨d, hd, hworker⟩ := List.mem_map.mp hm
      obtain ⟨drain', c', hw', _⟩ := World.request?_eq_some.mp (h.carries d hd)
      have hready' : (ofStage r).queue.workers[d.worker]? = some (.ready drain c) := hworker ▸ hready
      rw [hready'] at hw'
      cases hw'
    case manned =>
      intro n request hn
      by_cases hk : w = n
      · exact ⟨_, List.mem_cons_self, hk⟩
      · obtain ⟨drain', c', hw', hitem⟩ := World.request?_eq_some.mp hn
        have hw' : (r.queue.workers.set w _)[n]? = some (.storing drain' c') := hw'
        rw [List.getElem?_set_ne hk] at hw'
        obtain ⟨d, hd, hworker⟩ := h.manned n request (World.request?_eq_some.mpr ⟨drain', c', hw', hitem⟩)
        exact ⟨d, List.mem_cons_of_mem _ hd, hworker⟩
    case timely =>
      refine ⟨h.timely.1, fun d hd' => ?_⟩
      rcases List.mem_cons.mp hd' with rfl | hd'
      · exact hd
      · exact h.timely.2 d hd'
    case indirect => exact h.indirect
  · refine .step (inner (.queue (.work w)) rfl) ((step_plain r (e := .work w) rfl).trans ?_)
    unfold World.move
    show (Queue.step r.queue (.work w)).bind _ = _
    rw [hs]
    simp [hi, ofStage]

/-! ## Workers -/

theorem goes_moveWorker (h : r.moveWorker (stores (backendNaming name)) w = some r') : Goes name kind r r' := by
  unfold Scene.moveWorker at h
  obtain ⟨⟨queue, out⟩, hs, h⟩ := Option.bind_eq_some_iff.mp h
  cases hi : Scene.invoked? out with
  | none =>
    simp only [hi] at h
    cases h
    exact goes_move hs hi (by simp) (by simp) (inner (.queue (.work w)) rfl) (step_plain r rfl)
  | some entry =>
    intro l hr
    cases hlatency : (r.shared.store.receive entry.item).latency.getD 0 with
    | zero =>
      simp only [hi, begin_now hlatency] at h
      cases h
      obtain ⟨hstaged, hreach⟩ := hr.begin inner name hs hi 0 rfl
      obtain ⟨hended, hreach'⟩ := hstaged.finish inner name
      exact ⟨hended, hreach.trans hreach'⟩
    | succ millis =>
      simp only [hi, begin_later hlatency] at h
      cases h
      have hnow : (queue.now + (millis + 1) * 1000) % 1000 = 0 := by
        obtain ⟨_, _, _, _, rfl⟩ := begins_storing hs hi
        have := hr.timely.1
        show (r.queue.now + (millis + 1) * 1000) % 1000 = 0
        omega
      obtain ⟨hstaged, hreach⟩ := hr.begin inner name hs hi _ hnow
      refine ⟨hstaged.perm rfl rfl ?_, hreach⟩
      rw [← List.append_assoc]
      exact List.perm_append_singleton _ _

theorem goes_runs (h : Relation.ReflTransGen (Scene.Runs (stores (backendNaming name))) r r') :
    Goes name kind r r' := by
  induction h with
  | refl => exact .refl name kind r
  | tail _ hm ih =>
    obtain ⟨w, hm⟩ := hm
    exact ih.trans (goes_moveWorker inner hm)

theorem goes_runWorker : Goes name kind r (r.runWorker (stores (backendNaming name)) w) :=
  goes_runs inner (Queue.runSteps_runs ..)

theorem goes_runWorkers : Goes name kind r (r.runWorkers (stores (backendNaming name))) :=
  goes_runs inner (Queue.runWorkers_runs ..)

theorem goes_lookTimes (id n : Nat) : Goes name kind r (r.lookTimes id n).2 := by
  have hlooks := Queue.lookTimes_looks r id n
  generalize (r.lookTimes id n).2 = r' at hlooks
  induction hlooks with
  | refl => exact .refl name kind r
  | tail _ hl ih =>
    obtain ⟨⟨queue, out⟩, hs, rfl⟩ := Option.map_eq_some_iff.mp hl
    exact ih.trans (goes_move hs (invoked_none hs (by simp)) (by simp) (by simp) (inner (.queue (.look id)) rfl)
      (step_plain _ rfl))

theorem goes_rounds {look : Nat → Stage Memory → Bool × Stage Memory}
    (hlook : ∀ id r, Goes name kind r (look id r).2) (n : Nat) :
    Goes name kind r (r.rounds (stores (backendNaming name)) look n) := by
  have hall : ∀ (ids : List Nat) r, Goes name kind r (Scene.lookAll look ids r).2 := by
    intro ids
    induction ids with
    | nil => exact .refl name kind
    | cons id rest ih => exact fun r => (hlook id r).trans (ih _)
  induction n generalizing r with
  | zero => exact .refl name kind r
  | succ n ih =>
    unfold Scene.rounds
    have hexpire : Goes name kind r ((r.runWorkers (stores (backendNaming name))).apply .expire) :=
      (goes_runWorkers inner).trans (goes_plain rfl (inner (.queue .expire) rfl) rfl)
    generalize (r.runWorkers (stores (backendNaming name))).apply .expire = r₁ at hexpire ⊢
    have hlooks := hexpire.trans (hall (r₁.queue.calls.map (·.id)) r₁)
    dsimp only
    split <;> rename_i hl <;> rw [hl] at hlooks
    · exact hlooks.trans ih
    · exact hlooks.trans (goes_runWorkers inner)

theorem Staged.finishAll {due : List Running} (name : String → String) (h : Staged (due ++ l) r) :
    Staged l (Session.finishAll name due r) ∧
      Reaches name kind (ofStage r) (ofStage (Session.finishAll name due r)) := by
  induction due generalizing r with
  | nil => exact ⟨h, .refl name kind _⟩
  | cons e due ih =>
    obtain ⟨hended, hreach⟩ := h.finish inner name
    obtain ⟨hstaged, hreach'⟩ := goes_runWorker inner (w := e.worker) (due ++ l) hended
    obtain ⟨hall, hreach''⟩ := ih hstaged
    exact ⟨hall, (hreach.trans hreach').trans hreach''⟩

theorem goes_pass {s : Session Memory} (millis : Nat) :
    Goes name kind s.stage (s.pass (backendNaming name) millis).stage := by
  have hpass : Goes name kind s.stage (s.stage.apply (.pass (millis * 1000))) :=
    goes_plain (decide_eq_true (by omega)) (inner (.queue (.pass _)) rfl) rfl
  intro l h
  obtain ⟨hstaged, hreach⟩ := hpass l h
  obtain ⟨hall, hreach'⟩ := (hstaged.due (s.stage.apply (.pass (millis * 1000))).queue.now).finishAll inner name
  rw [pass_eq]
  exact ⟨hall, hreach.trans hreach'⟩

end

/-! ## Calls -/

theorem goes_serve (id : Nat) : Goes name anyAction r (serve (backendNaming name) id r).2 := by
  intro l h
  unfold serve
  cases hheld : r.queue.holding? id with
  | none => exact ⟨h, .refl name _ _⟩
  | some c =>
    cases hf : r.shared.foreground.get? id with
    | none => exact ⟨h, .refl name _ _⟩
    | some f =>
      rcases h.indirect id f hf with rfl | rfl
      · exact ⟨h, .refl name _ _⟩
      · exact goes_plain rfl rfl rfl l h

theorem goes_foreground {foreground : Table Nat Foreground}
    (hf : ∀ id f, foreground.get? id = some f →
      r.shared.foreground.get? id = some f ∨ f = .keeping ∨ f = .done) :
    Goes name anyAction r { r with shared := { r.shared with foreground } } := by
  intro l h
  refine ⟨⟨h.carries, h.distinct, h.manned, h.timely, fun id f hget => ?_⟩, .refl name _ _⟩
  rcases hf id f hget with hold | hnew
  · exact h.indirect id f hold
  · exact hnew

theorem goes_set_foreground (id : Nat) {f : Foreground} (hf : f = .keeping ∨ f = .done) :
    Goes name anyAction r { r with shared := { r.shared with foreground := r.shared.foreground.set id f } } := by
  refine goes_foreground fun k f' hget => ?_
  rw [Table.get?_set] at hget
  split at hget
  · cases hget
    exact .inr hf
  · exact .inl hget

theorem goes_forgetCall (id : Nat) : Goes name anyAction r (forgetCall id r) := by
  unfold forgetCall
  split
  · exact .refl name anyAction r
  · refine goes_foreground fun k f hget => .inl ?_
    rw [Table.get?_erase] at hget
    split at hget
    · cases hget
    · exact hget

theorem goes_look (id : Nat) : Goes name anyAction r (look (backendNaming name) id r).2 :=
  ((goes_lookTimes (fun _ _ => rfl) id 5).trans (goes_serve id)).trans (goes_forgetCall id)

/-! ## Nobody past the queue -/

def Quiet (r : Stage Memory) : Prop := r.shared.foreground = default

theorem runs_quiet (h : Quiet r) (hr : Relation.ReflTransGen (Scene.Runs (stores (backendNaming name))) r r') :
    Quiet r' := by
  induction hr with
  | refl => exact h
  | tail _ hm ih =>
    obtain ⟨w, hm⟩ := hm
    have hbegin : ∀ (r : Stage Memory) (drain : Queue.Drain AtomId Write) {outcome? : Option Outcome}
        {shared : Backstage Memory}, (stores (backendNaming name)).begin r.shared r.queue.now w drain.entry =
          (outcome?, shared) → shared.foreground = r.shared.foreground := by
      intro r drain outcome? shared hb
      cases hlatency : (r.shared.store.receive drain.entry.item).latency.getD 0 with
      | zero =>
        rw [begin_now hlatency] at hb
        cases hb
        rfl
      | succ =>
        rw [begin_later hlatency] at hb
        cases hb
        rfl
    cases Queue.moveWorker_cases hm with
    | moves => exact ih
    | begins drain c shared _ begin => exact (hbegin _ drain begin).trans ih
    | stores drain c shared outcome before begin =>
      rw [Scene.apply_eq (Queue.invoke_finish before shared outcome)]
      exact (hbegin _ drain begin).trans ih

theorem apply_shared (r : Stage Memory) (e : Queue.Event AtomId Write) : (r.apply e).shared = r.shared := by
  unfold Scene.apply
  split <;> rfl

theorem lookTimes_shared (r : Stage Memory) (id n : Nat) : (r.lookTimes id n).2.shared = r.shared := by
  have hlooks := Queue.lookTimes_looks r id n
  generalize (r.lookTimes id n).2 = r' at hlooks
  induction hlooks with
  | refl => rfl
  | tail _ hl ih =>
    obtain ⟨_, _, rfl⟩ := Option.map_eq_some_iff.mp hl
    exact ih

variable (name) in
theorem look_quiet (h : Quiet r) (id : Nat) : look (backendNaming name) id r = r.lookAt id := by
  have hquiet : Quiet (r.lookAt id).2 := (congrArg Backstage.foreground (lookTimes_shared r id 5)).trans h
  have hserve : serve (backendNaming name) id (r.lookAt id).2 = (false, (r.lookAt id).2) := by
    unfold serve
    rw [hquiet]
    split <;> rename_i hf <;> first | rfl | cases hf
  have hforget : forgetCall id (r.lookAt id).2 = (r.lookAt id).2 := by
    unfold forgetCall
    split
    · rfl
    · show ({ (r.lookAt id).2 with shared := { (r.lookAt id).2.shared with
        foreground := (r.lookAt id).2.shared.foreground.erase id } } : Stage Memory) = _
      rw [show (r.lookAt id).2.shared.foreground.erase id = (r.lookAt id).2.shared.foreground by rw [hquiet]; rfl]
  unfold look
  simp only [hserve, hforget, Bool.or_false]

variable (name) in
theorem lookAll_quiet (h : Quiet r) (ids : List Nat) :
    Scene.lookAll (look (backendNaming name)) ids r = Scene.lookAll Scene.lookAt ids r ∧
      Quiet (Scene.lookAll Scene.lookAt ids r).2 := by
  induction ids generalizing r with
  | nil => exact ⟨rfl, h⟩
  | cons id rest ih =>
    have hquiet : Quiet (r.lookAt id).2 := (congrArg Backstage.foreground (lookTimes_shared r id 5)).trans h
    obtain ⟨hsame, hall⟩ := ih hquiet
    refine ⟨?_, hall⟩
    simp only [Scene.lookAll, look_quiet name h, hsame]

variable (name) in
theorem rounds_quiet (h : Quiet r) (n : Nat) :
    r.rounds (stores (backendNaming name)) (look (backendNaming name)) n =
        r.rounds (stores (backendNaming name)) Scene.lookAt n ∧
      Quiet (r.rounds (stores (backendNaming name)) Scene.lookAt n) := by
  induction n generalizing r with
  | zero => exact ⟨rfl, h⟩
  | succ n ih =>
    have hworkers : Quiet ((r.runWorkers (stores (backendNaming name))).apply .expire) := by
      unfold Quiet
      rw [apply_shared]
      exact runs_quiet h (Queue.runWorkers_runs ..)
    unfold Scene.rounds
    generalize (r.runWorkers (stores (backendNaming name))).apply .expire = r₁ at hworkers ⊢
    obtain ⟨hsame, hquiet⟩ := lookAll_quiet name hworkers (r₁.queue.calls.map (·.id))
    dsimp only
    rw [hsame]
    split <;> rename_i hl <;> rw [hl] at hquiet
    · exact ih hquiet
    · exact ⟨rfl, runs_quiet hquiet (Queue.runWorkers_runs ..)⟩

theorem finishAll_quiet {due : List Running} (h : Quiet r) : Quiet (finishAll name due r) := by
  induction due generalizing r with
  | nil => exact h
  | cons d due ih =>
    refine ih (runs_quiet ?_ (Queue.runSteps_runs ..))
    unfold Session.finish Quiet
    rw [apply_shared]
    exact h

theorem settle_quiet (name : String → String) {s : Session Memory} (h : Quiet s.stage) :
    Quiet (s.settle (backendNaming name)).stage ∧
      Goes name Action.isStir s.stage (s.settle (backendNaming name)).stage ∧
      (Queue.Coherent s.queue → Queue.Settled (s.settle (backendNaming name)).queue) := by
  obtain ⟨hsame, hquiet⟩ := rounds_quiet name h (5 * s.stage.queue.calls.length + 2)
  have hstage : (s.settle (backendNaming name)).stage =
      s.stage.settle (stores (backendNaming name)) Scene.lookAt := hsame
  refine ⟨hstage ▸ hquiet, hstage ▸ ?_, fun hc => ?_⟩
  · exact goes_rounds (fun _ hs => hs) (fun id _ => goes_lookTimes (fun _ hs => hs) id 5) _
  · show Queue.Settled (s.settle (backendNaming name)).stage.queue
    rw [hstage]
    exact (Queue.settle_settled _ hc).2

theorem pass_quiet {s : Session Memory} (h : Quiet s.stage) (millis : Nat) :
    Quiet (s.pass (backendNaming name) millis).stage := by
  rw [pass_eq]
  exact finishAll_quiet h

theorem issue_quiet (name : String → String) {s : Session Memory} (id : Nat) {command : Command}
    (h : Quiet s.stage) (allowed : (ofStage s.stage).allows command = true)
    (enabled : Queue.step s.queue (command.event id) = some (queue, out)) :
    Quiet (s.issue (backendNaming name) id command).stage ∧
      World.step name (ofStage s.stage) (.call id command) =
        some (ofStage { s.stage with queue, notices := s.stage.notices ++ out }) ∧
      (Staged [] s.stage → Staged [] { s.stage with queue, notices := s.stage.notices ++ out }) ∧
      Goes name Action.isStir { s.stage with queue, notices := s.stage.notices ++ out }
        (s.issue (backendNaming name) id command).stage := by
  have hslight : isSlight (command.event id) = true := by cases command <;> rfl
  have hcall : World.step name (ofStage s.stage) (.call id command) =
    (ofStage s.stage).move (command.event id) := if_pos allowed
  have hnone : Scene.invoked? out = none := invoked_none enabled (by rintro w heq; rw [heq] at hslight; cases hslight)
  have hqueued : command.foreground? = none := by
    rw [World.allows, Bool.and_eq_true] at allowed
    exact Option.isNone_iff_eq_none.mp allowed.1
  have hissue : (s.issue (backendNaming name) id command).stage =
      (Scene.lookAt id { s.stage with queue, notices := s.stage.notices ++ out }).2 := by
    have happly : s.stage.apply (command.event id) = { s.stage with queue, notices := s.stage.notices ++ out } :=
      Scene.apply_eq enabled
    have hquiet : Quiet (s.stage.apply (command.event id)) := by
      unfold Quiet
      rw [apply_shared]
      exact h
    rw [← happly, ← look_quiet name hquiet id]
    unfold Session.issue
    simp only [hqueued]
  refine ⟨?_, hcall.trans (ofStage_move enabled hnone), fun hs => ?_, ?_⟩
  · rw [hissue]
    exact (congrArg Backstage.foreground (lookTimes_shared _ id 5)).trans h
  · have hgoes : Goes name anyAction s.stage (s.stage.apply (command.event id)) := goes_apply hslight rfl hcall
    rw [Scene.apply_eq enabled] at hgoes
    exact (hgoes [] hs).1
  · rw [hissue]
    exact goes_lookTimes (fun _ hs => hs) id 5

/-! ## Sessions -/

section
variable {s s' : Session Memory}

theorem goes_settle : Goes name anyAction s.stage (s.settle (backendNaming name)).stage :=
  goes_rounds (fun _ _ => rfl) (fun id _ => goes_look id) _

theorem goes_issue {id : Nat} {command : Command} (h : (ofStage s.stage).allows command = true) :
    Goes name anyAction s.stage (s.issue (backendNaming name) id command).stage := by
  have hcall : World.step name (ofStage s.stage) (.call id command) =
    (ofStage s.stage).move (command.event id) := if_pos h
  have hqueued : command.foreground? = none := by
    rw [World.allows, Bool.and_eq_true] at h
    exact Option.isNone_iff_eq_none.mp h.1
  have hmoves : Goes name anyAction s.stage (s.stage.apply (command.event id)) :=
    goes_apply (by cases command <;> rfl) rfl hcall
  unfold Session.issue
  simp only [hqueued]
  exact hmoves.trans (goes_look id)

theorem goes_take (id : Nat) : Goes name anyAction s.stage (s.issue (backendNaming name) id .take).stage := by
  have hkeeping : Goes name anyAction s.stage
      (s.mapBackstage fun t => { t with foreground := t.foreground.set id .keeping }).stage :=
    goes_set_foreground id (.inl rfl)
  exact (hkeeping.trans (goes_plain rfl rfl rfl)).trans (goes_look id)

theorem goes_release {id : Nat} (h : s.release? id = some s') : Goes name anyAction s.stage s'.stage := by
  unfold Session.release? at h
  split at h
  · cases h
    exact goes_set_foreground id (.inr rfl)
  · cases h

end

/-- What is done to a session whose callers write through its queue only. -/
inductive Drives (name : String → String) (s : Session Memory) : Session Memory → Prop where
  | node (id : AtomId) (type nodeName : String) (new : (s.catalog.get? id).isSome = false) :
    Drives name s (s.mapCatalog (·.insert (.node id type nodeName)))
  | link (id : AtomId) (type : String) (outgoing : List AtomId) (new : (s.catalog.get? id).isSome = false) :
    Drives name s (s.mapCatalog (·.insert (.link id type outgoing)))
  | set (id : AtomId) (key : String) (value : Json.Value) (known : (s.catalog.get? id).isSome = true) :
    Drives name s (s.mapCatalog (·.setValue id key value))
  | adjust (control : Control) : Drives name s (s.mapStore control.apply)
  | issue (id : Nat) (command : Command) (allowed : (ofStage s.stage).allows command = true) :
    Drives name s (s.issue (backendNaming name) id command)
  | take (id : Nat) : Drives name s (s.issue (backendNaming name) id .take)
  | release (id : Nat) (s' : Session Memory) (told : s.release? id = some s') : Drives name s s'
  | stall (on : Bool) : Drives name s (s.apply (.stall on))
  | clear (since : Int) : Drives name s (s.clear since)
  | settle : Drives name s (s.settle (backendNaming name))
  | pass (millis : Nat) : Drives name s (s.pass (backendNaming name) millis)

theorem goes_shared {store : Memory} {catalog : Catalog} (action : Action)
    (h : World.step name (ofStage r) action = some { ofStage r with store, catalog }) :
    Goes name anyAction r { r with shared := { r.shared with store, catalog } } :=
  fun _ hr => ⟨⟨hr.carries, hr.distinct, hr.manned, hr.timely, hr.indirect⟩, .step rfl h⟩

theorem Drives.goes {s s' : Session Memory} (h : Drives name s s') : Goes name anyAction s.stage s'.stage := by
  cases h with
  | node id type nodeName new =>
    exact goes_shared (.node id type nodeName) (if_neg (Bool.eq_false_iff.mp new))
  | link id type outgoing new =>
    exact goes_shared (.link id type outgoing) (if_neg (Bool.eq_false_iff.mp new))
  | set id key value known => exact goes_shared (.set id key value) (if_pos known)
  | adjust control => exact goes_shared (.adjust control) rfl
  | issue id command allowed => exact goes_issue allowed
  | take id => exact goes_take id
  | release id s' told => exact goes_release told
  | stall on => exact goes_plain (e := .stall on) rfl rfl rfl
  | clear since => exact goes_plain (e := .clear) rfl rfl rfl
  | settle => exact goes_settle
  | pass millis => exact goes_pass (fun _ _ => rfl) millis

theorem start_staged {config : SessionConfig} {since : Int} {store store' : Memory} {s : Session Memory}
    (hs : Session.start (backendNaming name) config since store = (.ok s, store')) : Staged [] s.stage := by
  obtain ⟨⟨connections, _, hb⟩, hshared, _⟩ := start_fresh hs
  obtain ⟨pool, _, _, hqueue⟩ := hb.eq
  have hqueue : s.stage.queue = _ := hqueue
  constructor
  case carries =>
    rw [hshared]
    exact fun d hd => absurd hd List.not_mem_nil
  case distinct =>
    rw [hshared]
    exact List.nodup_nil
  case manned =>
    intro n request hr
    obtain ⟨drain, c, hw, _⟩ := World.request?_eq_some.mp hr
    have hw : s.stage.queue.workers[n]? = some (.storing drain c) := hw
    rw [hqueue] at hw
    cases (List.mem_replicate.mp (List.mem_of_getElem? hw)).2
  case timely =>
    rw [hshared, hqueue]
    exact ⟨rfl, fun d hd => absurd hd List.not_mem_nil⟩
  case indirect =>
    rw [hshared]
    exact fun id f hf => by cases hf

/-- A session that was started and then driven by its schedule is in a state that a run reaches. -/
theorem driven_reaches {config : SessionConfig} {since : Int} {store store' : Memory} {s s' : Session Memory}
    (hs : Session.start (backendNaming name) config since store = (.ok s, store'))
    (h : Relation.ReflTransGen (Drives name) s s') :
    ∃ actions, World.run name (.ofSession s) actions = some (.ofSession s') := by
  have hgoes : Goes name anyAction s.stage s'.stage := by
    induction h with
    | refl => exact .refl name anyAction _
    | tail _ hlast ih => exact ih.trans hlast.goes
  obtain ⟨_, actions, _, hr⟩ := hgoes [] (start_staged hs)
  exact ⟨actions, hr⟩

end WriteBehind.Session
