import WriteBehind.Proofs.Queue.Frame

/-!
# How a waiting call looks

A call that looks falls asleep again, goes on to its next phase or returns. `look_cases` says what the
queue is like afterwards, phase by phase.
-/

namespace WriteBehind.Queue

variable {κ ι : Type} [Named κ] {s t : State κ ι} {out : List (Notice κ ι)} {id : Nat}

/-! ## Taking the held failure -/

def surfaced : Option (Failure κ) → Except Error Unit
  | some f => .error f.error
  | none => .ok ()

theorem takeFailure_eq (s : State κ ι) :
    s.takeFailure = (surfaced s.failure, { s with failure := none }) := by
  unfold State.takeFailure
  cases h : s.failure with
  | none => cases s; cases h; rfl
  | some f => rfl

theorem endFence_eq (s : State κ ι) (id : Nat) :
    s.endFence id = ({ s with failure := none }.leave id,
      [.returned id ((surfaced s.failure).map fun _ => .done)]) := by
  unfold State.endFence
  rw [takeFailure_eq]

def closing (failure : Option (Failure κ)) : Except Error Unit → Result
  | .ok () => (surfaced failure).map fun _ => .done
  | .error e => .error e

omit [Named κ] in
def heldBehind (failure : Option (Failure κ)) : Except Error Unit → Option (Failure κ)
  | .ok () => none
  | .error _ => failure

theorem endClose_eq (s : State κ ι) (id : Nat) (flushed : Except Error Unit) :
    s.endClose id flushed = ({ s with failure := heldBehind s.failure flushed }.leave id,
      [.returned id (closing s.failure flushed)]) := by
  unfold State.endClose
  cases flushed with
  | ok => simp only [takeFailure_eq, closing, heldBehind]
  | error => rfl

/-! ## Phases -/

def Blocked (s : State κ ι) : CallPhase → Prop
  | .stalled _ _ => s.isReleased = false
  | .fence target | .closing target => s.buffer.isDrainedThrough target = false
  | _ => False

/-- The phases in which a call sleeps until it is woken. -/
def CallPhase.dozes : CallPhase → Bool
  | .stalled .. | .fence _ | .closing _ => true
  | _ => false

omit [Named κ] in
theorem Blocked.dozes {phase : CallPhase} (h : Blocked s phase) : phase.dozes = true := by
  cases phase with
  | stalled | fence | closing => rfl
  | _ => cases h

theorem State.look_dozing {c : Call} (hc : s.call? id = some c) (hw : c.woken = false)
    (hp : c.phase.dozes = true) : s.look id = none := by
  unfold State.look
  cases hphase : c.phase with
  | stalled | fence | closing => simp [hc, hphase, hw]
  | _ =>
    rw [hphase] at hp
    cases hp

/-- How a call looks: the queue afterwards and what is noticed. -/
inductive Looks (s : State κ ι) (id : Nat) : Call → State κ ι → List (Notice κ ι) → Prop where
  | asleep (c : Call) (woken : c.woken = true) (blocked : Blocked s c.phase) :
    Looks s id c (s.mapCall id fun c => { c with woken := false }) []
  | released (c : Call) (receipt : Receipt) (phase : c.phase = .stalled receipt false)
    (released : s.isReleased = true) :
    Looks s id c (s.leave id) [.returned id (.ok (.receipt receipt))]
  | fenced (c : Call) (receipt : Receipt) (phase : c.phase = .stalled receipt true)
    (released : s.isReleased = true) :
    Looks s id c ((s.leave id).barrier id).1 [.accepted id receipt]
  | reported (c : Call) (target : Sequence) (phase : c.phase = .fence target)
    (drained : s.buffer.isDrainedThrough target = true) :
    Looks s id c ({ s with failure := none }.leave id)
      [.returned id ((surfaced s.failure).map fun _ => .done)]
  | flushed (c : Call) (target : Sequence) (phase : c.phase = .closing target)
    (drained : s.buffer.isDrainedThrough target = true) :
    Looks s id c ({ s with failure := none }.goOn id (.flushed (surfaced s.failure))) []
  | shut (c : Call) (flushed : Except Error Unit) (phase : c.phase = .flushed flushed) :
    Looks s id c (s.shutDown.goOn id (.stopping flushed)) [.closed]
  | taken (c : Call) (flushed : Except Error Unit) (phase : c.phase = .stopping flushed) :
    Looks s id c ({ s with unjoined := [] }.goOn id (.joining flushed s.unjoined)) []
  | joined (c : Call) (flushed : Except Error Unit) (workers : List Nat)
    (phase : c.phase = .joining flushed workers)
    (exited : ∀ w ∈ workers, ∀ ph, s.workers[w]? = some ph → ph.isExited = true) :
    Looks s id c ({ s with pool := s.pool.close.2 }.goOn id (.ending flushed))
      [.surrendered s.pool.close.1]
  | ended (c : Call) (flushed : Except Error Unit) (phase : c.phase = .ending flushed) :
    Looks s id c ({ s with failure := heldBehind s.failure flushed }.leave id)
      [.returned id (closing s.failure flushed)]
  | lent (c : Call) (conn : Connection) (pool : Pool Connection Borrower) (phase : c.phase = .borrowing)
    (collect : s.pool.collect (.call id) = (.lent conn, pool)) :
    Looks s id c ({ s with pool }.goOn id (.holding conn)) [.lent id conn]
  | refused (c : Call) (e : Error) (pool : Pool Connection Borrower) (phase : c.phase = .borrowing)
    (collect : s.pool.collect (.call id) = (.refused e, pool)) :
    Looks s id c ({ s with pool }.leave id) [.returned id (.error e)]

theorem look_cases (h : s.look id = some (t, out)) : ∃ c, s.call? id = some c ∧ Looks s id c t out := by
  unfold State.look at h
  cases hc : s.call? id with
  | none => simp [hc] at h
  | some c =>
    refine ⟨c, rfl, ?_⟩
    simp only [hc, bind, Option.bind_some] at h
    cases hp : c.phase with
    | stalled receipt fenced =>
      simp only [hp] at h
      split at h
      · cases h
      · rename_i hw
        split at h
        · rename_i hr
          cases fenced with
          | true => cases h; exact .fenced c receipt hp hr
          | false => cases h; exact .released c receipt hp hr
        · rename_i hr
          cases h
          exact .asleep c (by simpa using hw) (by rw [hp]; simpa [Blocked] using hr)
    | fence target =>
      simp only [hp] at h
      split at h
      · cases h
      · rename_i hw
        split at h
        · rename_i hd
          rw [endFence_eq] at h
          cases h
          exact .reported c target hp hd
        · rename_i hd
          cases h
          exact .asleep c (by simpa using hw) (by rw [hp]; simpa [Blocked] using hd)
    | closing target =>
      simp only [hp] at h
      split at h
      · cases h
      · rename_i hw
        split at h
        · rename_i hd
          rw [takeFailure_eq] at h
          cases h
          exact .flushed c target hp hd
        · rename_i hd
          cases h
          exact .asleep c (by simpa using hw) (by rw [hp]; simpa [Blocked] using hd)
    | flushed flushed =>
      simp only [hp] at h
      cases h
      exact .shut c flushed hp
    | stopping flushed =>
      simp only [hp] at h
      cases h
      exact .taken c flushed hp
    | joining flushed workers =>
      simp only [hp] at h
      split at h
      · rename_i ha
        cases h
        refine .joined c flushed workers hp fun w hw ph hph => ?_
        have := List.all_eq_true.mp ha w hw
        rw [hph] at this
        exact this
      · cases h
    | ending flushed =>
      simp only [hp, endClose_eq] at h
      cases h
      exact .ended c flushed hp
    | borrowing =>
      simp only [hp] at h
      split at h
      · rename_i hl
        cases h
        exact .lent c _ _ hp hl
      · cases h
      · rename_i hl
        cases h
        exact .refused c _ _ hp hl
    | holding conn => simp only [hp] at h; cases h

end WriteBehind.Queue
