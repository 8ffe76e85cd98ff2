import WriteBehind.Proofs.Queue.Frame

/-!
# How a worker moves

What a worker finds when it moves on by itself, and what the queue is like afterwards.
-/

namespace WriteBehind.Queue

variable {κ ι : Type} [DecidableEq κ] {s t : State κ ι} {out : List (Notice κ ι)} {w : Nat}

def Asks (s : State κ ι) (w : Nat) (drain : Drain κ ι) (loan : Loan Connection)
    (pool : Pool Connection Borrower) : Prop :=
  s.workers[w]? = some (.claimed drain) ∧ s.pool.acquire (.worker w) = (loan, pool) ∨
    s.workers[w]? = some (.borrowing drain) ∧ s.pool.collect (.worker w) = (loan, pool)

/-- How a worker moves: the queue afterwards and what is noticed. -/
inductive Works (s : State κ ι) (w : Nat) : State κ ι → List (Notice κ ι) → Prop where
  | asked (before : s.workers[w]? = some .idle) (unready : w ∉ s.bell.alert)
    (unlisted : w ∉ s.bell.waiters) : Works s w { s with bell := s.bell.ask w } []
  | claimed (entry : Claimed κ ι) (buffer : Buffer κ ι) (before : s.workers[w]? = some .idle)
    (alert : w ∈ s.bell.alert) (claim : s.buffer.claim = (some entry, buffer)) :
    Works s w ({ s with buffer, bell := s.bell.look w, counters := s.counters.beginDrain }.setWorker w
      (.claimed { entry, since := s.now })) []
  | exited (buffer : Buffer κ ι) (before : s.workers[w]? = some .idle) (alert : w ∈ s.bell.alert)
    (claim : s.buffer.claim = (none, buffer)) (closed : s.closed = true)
    (empty : s.buffer.pending.size = 0) :
    Works s w ({ s with bell := (s.bell.look w).leave w }.setWorker w .exited) []
  | slept (buffer : Buffer κ ι) (before : s.workers[w]? = some .idle) (alert : w ∈ s.bell.alert)
    (claim : s.buffer.claim = (none, buffer)) (needed : s.closed = true → s.buffer.pending.size ≠ 0) :
    Works s w { s with bell := s.bell.look w } []
  | lent (drain : Drain κ ι) (c : Connection) (pool : Pool Connection Borrower)
    (asks : Asks s w drain (.lent c) pool) :
    Works s w ({ s with pool }.setWorker w (.ready drain c)) []
  | waits (drain : Drain κ ι) (pool : Pool Connection Borrower)
    (before : s.workers[w]? = some (.claimed drain))
    (acquire : s.pool.acquire (.worker w) = (.waits, pool)) :
    Works s w ({ s with pool }.setWorker w (.borrowing drain)) []
  | refused (drain : Drain κ ι) (e : Error) (pool : Pool Connection Borrower)
    (asks : Asks s w drain (.refused e) pool) :
    Works s w ({ s with pool }.endDrain w drain (.error (.connectionFailed e.message))) []
  | begun (drain : Drain κ ι) (c : Connection) (before : s.workers[w]? = some (.ready drain c)) :
    Works s w (s.setWorker w (.storing drain c.use)) [.invoked w drain.entry c.use]
  | noted (entry : Claimed κ ι) (outcome : Outcome)
    (before : s.workers[w]? = some (.ended entry outcome)) :
    Works s w ((s.hold entry outcome).setWorker w (.retiring entry outcome)) []
  | retired (entry : Claimed κ ι) (outcome : Outcome)
    (before : s.workers[w]? = some (.retiring entry outcome)) :
    Works s w (s.retire w entry) [.drained entry outcome]

theorem search_cases (before : s.workers[w]? = some .idle) (alert : w ∈ s.bell.alert) :
    Works s w (s.search w) [] := by
  unfold State.search
  split
  · rename_i claim
    exact .claimed _ _ before alert claim
  · rename_i claim
    split
    · rename_i leaving
      exact .exited _ before alert claim leaving.1 leaving.2
    · rename_i needed
      exact .slept _ before alert claim fun hc hz => needed ⟨hc, hz⟩

theorem work_cases (h : s.work w = some (t, out)) : Works s w t out := by
  unfold State.work at h
  cases hw : s.workers[w]? with
  | none => simp [hw] at h
  | some ph =>
    simp only [hw, bind, Option.bind_some] at h
    cases ph with
    | idle =>
      simp only at h
      split at h
      · rename_i alert
        cases h
        exact search_cases hw alert
      · rename_i unready
        split at h
        · cases h
        · rename_i unlisted
          cases h
          exact .asked hw unready unlisted
    | claimed drain =>
      simp only at h
      split at h <;> rename_i hl <;> cases h
      · exact .lent drain _ _ (.inl ⟨hw, hl⟩)
      · exact .waits drain _ hw hl
      · exact .refused drain _ _ (.inl ⟨hw, hl⟩)
    | borrowing drain =>
      simp only at h
      split at h <;> rename_i hl <;> cases h
      · exact .lent drain _ _ (.inr ⟨hw, hl⟩)
      · exact .refused drain _ _ (.inr ⟨hw, hl⟩)
    | ready drain c => cases h; exact .begun drain c hw
    | storing drain c => cases h
    | ended entry outcome => cases h; exact .noted entry outcome hw
    | retiring entry outcome => cases h; exact .retired entry outcome hw
    | exited => cases h

omit [DecidableEq κ] in
theorem finish_cases {outcome : Outcome} (h : s.finish w outcome = some (t, out)) :
    ∃ drain c, s.workers[w]? = some (.storing drain c) ∧ out = [] ∧
      t = { s with pool := s.pool.giveBack c }.endDrain w drain outcome := by
  unfold State.finish at h
  cases hw : s.workers[w]? with
  | none => simp [hw] at h
  | some ph =>
    simp only [hw, bind, Option.bind_some] at h
    cases ph with
    | storing drain c => cases h; exact ⟨drain, c, rfl, rfl, rfl⟩
    | _ => cases h

end WriteBehind.Queue
