import WriteBehind.Proofs.Folds
import WriteBehind.Proofs.Queue.History
import WriteBehind.Session.Step

/-!
# Runs of a session

A step of a session changes the atoms, the backend or the queue. What the queue does along a run of a
session is a run of the queue.
-/

namespace WriteBehind.Session

open Queue (Acceptance Notice Outcome)

def Action.made? : Action → Option Atom
  | .node id type name => some (.node id type name)
  | .link id type outgoing => some (.link id type outgoing)
  | _ => none

theorem Action.made_bare {action : Action} {a : Atom} (h : action.made? = some a) : a.values = [] := by
  cases action <;> cases h <;> rfl

theorem Control.apply_contents (m : Memory) (control : Control) : (control.apply m).contents = m.contents := by
  cases control <;> rfl

namespace World

variable {name : String → String} {w u v : World} {action : Action} {actions later : List Action}
  {e : Queue.Event AtomId Write} {α : Type}

/-! ## Runs -/

theorem run_nil : run name w [] = some u ↔ u = w := by
  simp [run, eq_comm]

theorem run_append : run name w (actions ++ later) = some u ↔
    ∃ v, run name w actions = some v ∧ run name v later = some u := foldlM_append_eq_some

theorem run_cons : run name w (action :: later) = some u ↔
    ∃ v, step name w action = some v ∧ run name v later = some u := foldlM_cons_eq_some

theorem run_singleton : run name w [action] = some u ↔ step name w action = some u := by
  rw [run_cons]
  simp [run_nil]

theorem run_snoc (h : run name w actions = some v) (hs : step name v action = some u) :
    run name w (actions ++ [action]) = some u :=
  run_append.mpr ⟨v, h, run_singleton.mpr hs⟩

theorem run_induction {P : List Action → World → Prop} (start : P [] w)
    (next : ∀ actions v action u, run name w actions = some v → P actions v → step name v action = some u →
      P (actions ++ [action]) u)
    (h : run name w actions = some u) : P actions u :=
  foldlM_induction start next h

/-! ## Steps -/

structure Moved (w u : World) (e : Queue.Event AtomId Write) (out : List (Notice AtomId Write)) : Prop where
  step : Queue.step w.queue e = some (u.queue, out)
  notices : u.notices = w.notices ++ out
  catalog : u.catalog = w.catalog
  drafts : u.drafts = w.drafts
  contents : u.store.contents = w.store.contents

theorem move_cases (h : w.move e = some u) : ∃ out, Moved w u e out := by
  obtain ⟨⟨queue, out⟩, hs, hu⟩ := Option.bind_eq_some_iff.mp h
  simp only [pure, Option.some.injEq] at hu
  subst hu
  refine ⟨out, hs, rfl, rfl, rfl, ?_⟩
  dsimp only
  split <;> rfl

inductive Steps (name : String → String) (w : World) : Action → World → Prop where
  | created (action : Action) (a : Atom) (made : action.made? = some a)
    (fresh : w.catalog.get? a.id = none) :
    Steps name w action { w with catalog := w.catalog.insert a }
  | set (id : AtomId) (key : String) (value : Json.Value) (a : Atom) (known : w.catalog.get? id = some a) :
    Steps name w (.set id key value) { w with catalog := w.catalog.insert (a.set key value) }
  | adjusted (control : Control) : Steps name w (.adjust control) { w with store := control.apply w.store }
  | called (id : Nat) (command : Command) (u : World) (out : List (Notice AtomId Write))
    (allowed : w.allows command = true) (moved : Moved w u (command.event id) out) :
    Steps name w (.call id command) u
  | moved (e : Queue.Event AtomId Write) (u : World) (out : List (Notice AtomId Write))
    (plain : isPlain e = true) (moved : Moved w u e out) : Steps name w (.queue e) u
  | read (worker : Nat) (request : Write) (carries : w.request? worker = some request) :
    Steps name w (.read worker) { w with drafts := w.drafts.set worker w.catalog }
  | wrote (worker : Nat) (request : Write) (draft : Catalog) (outcome : Outcome) (store : Memory) (u : World)
    (out : List (Notice AtomId Write)) (carries : w.request? worker = some request)
    (found : w.drafts.get? worker = some draft)
    (carried : Memory.carryOut name w.store draft request = (outcome, store))
    (moved : Moved { w with store, drafts := w.drafts.erase worker } u (.finish worker outcome) out) :
    Steps name w (.write worker) u

theorem create_cases {a : Atom} (h : w.create a = some u) :
    w.catalog.get? a.id = none ∧ u = { w with catalog := w.catalog.insert a } := by
  unfold create at h
  split at h
  · cases h
  · rename_i hn
    cases h
    exact ⟨by simpa using hn, rfl⟩

theorem step_cases (h : step name w action = some u) : Steps name w action u := by
  cases action with
  | node id type nodeName =>
    obtain ⟨hfresh, rfl⟩ := create_cases h
    exact .created _ _ rfl hfresh
  | link id type outgoing =>
    obtain ⟨hfresh, rfl⟩ := create_cases h
    exact .created _ _ rfl hfresh
  | set id key value =>
    simp only [step] at h
    split at h
    · rename_i hk
      obtain ⟨a, ha⟩ := Option.isSome_iff_exists.mp hk
      cases h
      unfold Catalog.setValue
      rw [ha]
      exact .set id key value a ha
    · cases h
  | adjust control => cases h; exact .adjusted control
  | call id command =>
    simp only [step] at h
    split at h
    · obtain ⟨out, hm⟩ := move_cases h
      exact .called id command u out (by assumption) hm
    · cases h
  | queue e =>
    simp only [step] at h
    split at h
    · obtain ⟨out, hm⟩ := move_cases h
      exact .moved e u out (by assumption) hm
    · cases h
  | read worker =>
    obtain ⟨request, hr, hu⟩ := Option.bind_eq_some_iff.mp h
    cases hu
    exact .read worker request hr
  | write worker =>
    obtain ⟨request, hr, hd⟩ := Option.bind_eq_some_iff.mp h
    obtain ⟨draft, hd, hu⟩ := Option.bind_eq_some_iff.mp hd
    obtain ⟨out, hm⟩ := move_cases hu
    exact .wrote worker request draft _ _ u out hr hd rfl hm

/-! ## Observers -/

def observe (name : String → String) (note : World → Action → List α) (w : World) : List Action → List α
  | [] => []
  | action :: later =>
    match step name w action with
    | some u => note w action ++ observe name note u later
    | none => []

variable {note : World → Action → List α}

theorem observe_append (h : run name w actions = some u) :
    observe name note w (actions ++ later) = observe name note w actions ++ observe name note u later := by
  induction actions generalizing w with
  | nil =>
    obtain rfl := run_nil.mp h
    rfl
  | cons action actions ih =>
    obtain ⟨v, hs, hr⟩ := run_cons.mp h
    rw [List.cons_append]
    simp only [observe, hs]
    rw [ih hr, List.append_assoc]

theorem observe_snoc (h : run name w actions = some u) (hs : step name u action = some v) :
    observe name note w (actions ++ [action]) = observe name note w actions ++ note u action := by
  rw [observe_append h]
  simp [observe, hs]

def accepted? (w : World) : Action → Option (Acceptance AtomId Write)
  | .call id command => (Queue.step w.queue (command.event id)).bind (Queue.accepted? (command.event id))
  | _ => none

def acceptances (name : String → String) (w : World) (actions : List Action) :
    List (Acceptance AtomId Write) :=
  observe name (fun w action => (w.accepted? action).toList) w actions

theorem acceptances_snoc (h : run name w actions = some u) (hs : step name u action = some v) :
    acceptances name w (actions ++ [action]) = acceptances name w actions ++ (u.accepted? action).toList :=
  observe_snoc h hs

/-! ## The queue of a session -/

theorem accepted_of_plain {effect : Queue.Effect AtomId Write} (h : isPlain e = true) :
    Queue.accepted? e effect = none := by
  cases e <;> first | rfl | cases h

theorem Moved.accepted {id : Nat} {command : Command} {out : List (Notice AtomId Write)}
    (h : Moved w u (command.event id) out) :
    w.accepted? (.call id command) = Queue.accepted? (command.event id) (u.queue, out) := by
  simp [accepted?, h.step]

theorem step_queue (h : step name w action = some u) :
    (u.queue = w.queue ∧ u.notices = w.notices ∧ w.accepted? action = none) ∨
    ∃ e out, Queue.step w.queue e = some (u.queue, out) ∧ u.notices = w.notices ++ out ∧
      w.accepted? action = Queue.accepted? e (u.queue, out) := by
  cases step_cases h with
  | created _ a made =>
    refine .inl ⟨rfl, rfl, ?_⟩
    cases action <;> first | rfl | cases made
  | set => exact .inl ⟨rfl, rfl, rfl⟩
  | adjusted => exact .inl ⟨rfl, rfl, rfl⟩
  | called id command _ out _ moved => exact .inr ⟨_, out, moved.step, moved.notices, moved.accepted⟩
  | moved e _ out plain moved => exact .inr ⟨e, out, moved.step, moved.notices, (accepted_of_plain plain).symm⟩
  | read => exact .inl ⟨rfl, rfl, rfl⟩
  | wrote worker _ _ outcome _ _ out _ _ _ moved => exact .inr ⟨_, out, moved.step, moved.notices, rfl⟩

/-- What the queue does along a run of a session is a run of the queue, with the same notices and the same
accepted writes. -/
theorem queue_run (h : run name w actions = some u) : ∃ events out,
    Queue.run w.queue events = some (u.queue, out) ∧ u.notices = w.notices ++ out ∧
    Queue.acceptances w.queue events = acceptances name w actions := by
  refine run_induction (P := fun actions u => ∃ events out, Queue.run w.queue events = some (u.queue, out) ∧
    u.notices = w.notices ++ out ∧ Queue.acceptances w.queue events = acceptances name w actions) ?_ ?_ h
  · exact ⟨[], [], rfl, by simp, rfl⟩
  · intro actions v action u hv ⟨events, out, hr, hn, ha⟩ hs
    rw [acceptances_snoc hv hs]
    rcases step_queue hs with ⟨hq, hn', ha'⟩ | ⟨e, o, he, hn', ha'⟩
    · refine ⟨events, out, hq ▸ hr, hn'.trans hn, ?_⟩
      rw [ha, ha']
      simp
    · refine ⟨events ++ [e], out ++ o, Queue.run_snoc hr he, ?_, ?_⟩
      · rw [hn', hn, List.append_assoc]
      · rw [Queue.acceptances_snoc hr he, ha, ha']

end World

end WriteBehind.Session
