import WriteBehind.Queue.Step

/-!
# What workers do not see

A worker reads neither the watermarks nor the calls that wait, and nothing that is counted. Whatever of these
is hidden, it moves as it would without.
-/

namespace WriteBehind.Queue

variable {κ ι : Type}

/-- A change to what workers do not read. What they count and whom they wake is changed alike before and
after. -/
structure Veil where
  marks : Watermarks → Watermarks
  stalling : Bool → Bool
  count : Counters → Counters
  calls : List Call → List Call
  count_begin (c : Counters) : count c.beginDrain = (count c).beginDrain
  count_end (c : Counters) (micros : Nat) (ok : Bool) :
    count (c.endDrain micros ok) = (count c).endDrain micros ok
  calls_wake (l : List Call) :
    calls (l.map fun c => { c with woken := true }) = (calls l).map fun c => { c with woken := true }

namespace Veil

variable (v : Veil)

def hide (s : State κ ι) : State κ ι :=
  { s with
    watermarks := v.marks s.watermarks
    stalling := v.stalling s.stalling
    counters := v.count s.counters
    calls := v.calls s.calls }

def after (effect : Effect κ ι) : Effect κ ι := (v.hide effect.1, effect.2)

theorem endDrain (s : State κ ι) (w : Nat) (drain : Drain κ ι) (outcome : Outcome) :
    (v.hide s).endDrain w drain outcome = v.hide (s.endDrain w drain outcome) := by
  simp only [State.endDrain, State.setWorker, hide, v.count_end]

theorem wakeAll (s : State κ ι) : (v.hide s).wakeAll = v.hide s.wakeAll := by
  simp only [State.wakeAll, hide, v.calls_wake]

theorem finish (s : State κ ι) (w : Nat) (outcome : Outcome) :
    (v.hide s).finish w outcome = (s.finish w outcome).map v.after := by
  have hworkers : (v.hide s).workers = s.workers := rfl
  unfold State.finish
  rw [hworkers]
  cases s.workers[w]? with
  | none => rfl
  | some ph =>
    cases ph with
    | storing drain conn =>
      exact congrArg some (Prod.ext (v.endDrain { s with pool := s.pool.giveBack conn } w drain outcome) rfl)
    | _ => rfl

variable [DecidableEq κ]

theorem search (s : State κ ι) (w : Nat) : (v.hide s).search w = v.hide (s.search w) := by
  have hbuffer : (v.hide s).buffer = s.buffer := rfl
  have hclosed : (v.hide s).closed = s.closed := rfl
  unfold State.search
  rw [hbuffer, hclosed]
  split
  · simp only [State.setWorker, hide, v.count_begin]
  · split <;> rfl

theorem retire (s : State κ ι) (w : Nat) (entry : Claimed κ ι) :
    (v.hide s).retire w entry = v.hide (s.retire w entry) := by
  unfold State.retire
  exact congrArg (·.setWorker w .idle) (v.wakeAll { s with buffer := _, bell := _ })

theorem work (s : State κ ι) (w : Nat) : (v.hide s).work w = (s.work w).map v.after := by
  have hworkers : (v.hide s).workers = s.workers := rfl
  have hbell : (v.hide s).bell = s.bell := rfl
  have hpool : (v.hide s).pool = s.pool := rfl
  unfold State.work
  rw [hworkers]
  cases s.workers[w]? with
  | none => rfl
  | some ph =>
    simp only [bind, Option.bind_some, hbell, hpool]
    cases ph with
    | idle =>
      simp only
      split
      · exact congrArg some (Prod.ext (v.search s w) rfl)
      · split <;> rfl
    | claimed drain =>
      obtain ⟨loan, pool⟩ := s.pool.acquire (.worker w)
      cases loan with
      | refused e => exact congrArg some (Prod.ext (v.endDrain { s with pool } w drain _) rfl)
      | _ => rfl
    | borrowing drain =>
      obtain ⟨loan, pool⟩ := s.pool.collect (.worker w)
      cases loan with
      | refused e => exact congrArg some (Prod.ext (v.endDrain { s with pool } w drain _) rfl)
      | _ => rfl
    | ended entry outcome => cases outcome <;> rfl
    | retiring entry outcome => exact congrArg some (Prod.ext (v.retire s w entry) rfl)
    | _ => rfl

end Veil

end WriteBehind.Queue
