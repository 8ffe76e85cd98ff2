import WriteBehind.Proofs.Pool.Permits
import WriteBehind.Proofs.Queue.Totals

/-!
# Who waits for a connection

The pool and the queue agree on who waits for a connection and on how many are lent. A step uses the
pool once at most, on behalf of one borrower; all others wait as before.
-/

namespace WriteBehind.Queue

variable {κ ι : Type} {s t : State κ ι} {out : List (Notice κ ι)} {e : Event κ ι} {id w : Nat}

def Phase.lent (ph : Phase κ ι) : Nat := if ph.connection?.isSome then 1 else 0

def CallPhase.lent : CallPhase → Nat
  | .holding _ => 1
  | _ => 0

namespace State

def lent (s : State κ ι) : Nat := s.total Phase.lent CallPhase.lent

def Borrows (s : State κ ι) : Borrower → Prop
  | .worker w => ∃ d, s.workers[w]? = some (.borrowing d)
  | .call id => s.phase? id = some .borrowing

theorem borrows_worker : s.Borrows (.worker w) ↔ ∃ d, s.workers[w]? = some (.borrowing d) := Iff.rfl

theorem borrows_call : s.Borrows (.call id) ↔ s.phase? id = some .borrowing := Iff.rfl

end State

structure Lending (s : State κ ι) : Prop where
  kept : s.pool.Kept s.lent
  enrolled : ∀ b, b ∈ s.pool.enrolled ↔ s.Borrows b

/-! ## Borrowers that a step does not concern -/

theorem borrows_calls (hw : t.workers = s.workers) (hp : ∀ id', id ≠ id' → t.phase? id' = s.phase? id')
    (b : Borrower) (hb : b ≠ .call id) : t.Borrows b ↔ s.Borrows b := by
  cases b with
  | worker w => rw [State.borrows_worker, State.borrows_worker, hw]
  | call id' =>
    have hne : id ≠ id' := fun he => hb (he ▸ rfl)
    rw [State.borrows_call, State.borrows_call, hp id' hne]

theorem borrows_workers {ph ph' : Phase κ ι} (move : Moves s t w ph ph')
    (hp : ∀ id, t.phase? id = s.phase? id) (b : Borrower) (hb : b ≠ .worker w) :
    t.Borrows b ↔ s.Borrows b := by
  cases b with
  | worker w' =>
    have hne : w ≠ w' := fun he => hb (he ▸ rfl)
    rw [State.borrows_worker, State.borrows_worker, move.worker, if_neg hne]
  | call id => rw [State.borrows_call, State.borrows_call, hp id]

theorem borrows_same {b : Borrower} (hother : ∀ b', b' ≠ b → (t.Borrows b' ↔ s.Borrows b'))
    (hself : t.Borrows b ↔ s.Borrows b) (b' : Borrower) : t.Borrows b' ↔ s.Borrows b' := by
  by_cases hb : b' = b
  · rw [hb]
    exact hself
  · exact hother b' hb

theorem borrows_more {b : Borrower} (hother : ∀ b', b' ≠ b → (t.Borrows b' ↔ s.Borrows b'))
    (hself : t.Borrows b) (b' : Borrower) : t.Borrows b' ↔ b' = b ∨ s.Borrows b' := by
  by_cases hb : b' = b
  · subst hb
    simp [hself]
  · simp [hb, hother b' hb]

theorem borrows_less {b : Borrower} (hother : ∀ b', b' ≠ b → (t.Borrows b' ↔ s.Borrows b'))
    (hself : ¬ t.Borrows b) (b' : Borrower) : t.Borrows b' ↔ b' ≠ b ∧ s.Borrows b' := by
  by_cases hb : b' = b
  · subst hb
    simp [hself]
  · simp [hb, hother b' hb]

/-! ## What a step does to the pool -/

/-- How a step uses the pool: on whose behalf, who waits afterwards and how many connections are lent. -/
inductive Lends (s t : State κ ι) : Prop where
  | rest (pool : t.pool = s.pool) (borrowers : ∀ b, t.Borrows b ↔ s.Borrows b) (lent : t.lent = s.lent)
  | lent (b : Borrower) (c : Connection) (takes : s.pool.acquire b = (.lent c, t.pool))
    (borrowers : ∀ b, t.Borrows b ↔ s.Borrows b) (lent : t.lent = s.lent + 1)
  | waits (b : Borrower) (asks : s.pool.acquire b = (.waits, t.pool)) (new : ¬ s.Borrows b)
    (borrowers : ∀ b', t.Borrows b' ↔ b' = b ∨ s.Borrows b') (lent : t.lent = s.lent)
  | collected (b : Borrower) (c : Connection) (takes : s.pool.collect b = (.lent c, t.pool))
    (borrowers : ∀ b', t.Borrows b' ↔ b' ≠ b ∧ s.Borrows b') (lent : t.lent = s.lent + 1)
  | refused (b : Borrower) (error : Error) (refuses : s.pool.collect b = (.refused error, t.pool))
    (borrowers : ∀ b', t.Borrows b' ↔ b' ≠ b ∧ s.Borrows b') (lent : t.lent = s.lent)
  | returned (c : Connection) (pool : t.pool = s.pool.giveBack c)
    (borrowers : ∀ b, t.Borrows b ↔ s.Borrows b) (lent : t.lent + 1 = s.lent)
  | closed (pool : t.pool = s.pool.close.2) (borrowers : ∀ b, t.Borrows b ↔ s.Borrows b)
    (lent : t.lent = s.lent)

theorem lent_congr (hw : t.workers = s.workers) (hc : t.calls = s.calls) : t.lent = s.lent := by
  unfold State.lent State.total State.phases
  rw [hw, hc]

theorem Lends.of_same (hw : t.workers = s.workers) (hc : t.calls = s.calls) (hp : t.pool = s.pool) : Lends s t := by
  refine .rest hp (fun b => ?_) (lent_congr hw hc)
  unfold State.Borrows State.phase? State.call?
  rw [hw, hc]

theorem Lending.lends (hs : Lending s) (hb : s.pool.Balanced) (h : Lends s t) : Lending t := by
  cases h with
  | rest pool borrowers lent =>
    refine ⟨?_, fun b => ?_⟩
    · rw [pool, lent]
      exact hs.kept
    · rw [pool, borrowers]
      exact hs.enrolled b
  | lent b c takes borrowers lent =>
    obtain ⟨hk, he⟩ := hs.kept.acquire_lent hb takes
    refine ⟨lent ▸ hk, fun b => ?_⟩
    rw [he, borrowers]
    exact hs.enrolled b
  | waits b asks new borrowers lent =>
    have hnew : b ∉ s.pool.enrolled := fun hm => new ((hs.enrolled b).mp hm)
    obtain ⟨hk, he⟩ := hs.kept.acquire_waits hnew asks
    refine ⟨lent ▸ hk, fun b' => ?_⟩
    rw [he.mem_iff, borrowers, List.mem_cons, hs.enrolled]
  | collected b c takes borrowers lent =>
    obtain ⟨hk, he⟩ := hs.kept.collect_lent hb takes
    refine ⟨lent ▸ hk, fun b' => ?_⟩
    rw [he, borrowers, hs.kept.distinct.mem_erase_iff, hs.enrolled]
  | refused b error refuses borrowers lent =>
    obtain ⟨hk, he⟩ := hs.kept.collect_refused hb refuses
    refine ⟨lent ▸ hk, fun b' => ?_⟩
    rw [he, borrowers, hs.kept.distinct.mem_erase_iff, hs.enrolled]
  | returned c pool borrowers lent =>
    have hkept := hs.kept
    rw [← lent] at hkept
    obtain ⟨hk, he⟩ := hkept.giveBack c
    refine ⟨pool ▸ hk, fun b => ?_⟩
    rw [pool, he.mem_iff, borrowers]
    exact hs.enrolled b
  | closed pool borrowers lent =>
    obtain ⟨hk, he⟩ := hs.kept.close
    refine ⟨?_, fun b => ?_⟩
    · rw [pool, lent]
      exact hk
    · rw [pool, he, borrowers]
      exact hs.enrolled b

/-! ## Workers -/

theorem Asks.lends {drain : Drain κ ι} {loan : Loan Connection} {ph' : Phase κ ι}
    (hb : s.pool.Balanced) (asks : Asks s w drain loan t.pool) (hw : t.workers = s.workers.set w ph')
    (hc : t.calls = s.calls) (hloan : (∃ c, loan = .lent c ∧ ph' = .ready drain c) ∨
      ∃ error o, loan = .refused error ∧ ph' = .ended drain.entry o) : Lends s t := by
  have hphase : ∀ id, t.phase? id = s.phase? id := by
    intro id
    unfold State.phase? State.call?
    rw [hc]
  have hphases : t.phases = s.phases := by
    unfold State.phases
    rw [hc]
  have hnot : (∃ d, some ph' = some (Phase.borrowing d)) → False := by
    rintro ⟨d, hd⟩
    obtain ⟨c, _, rfl⟩ | ⟨error, o, _, rfl⟩ := hloan <;> cases hd
  obtain ⟨before, hl⟩ | ⟨before, hl⟩ := asks
  · have move : Moves s t w _ ph' := ⟨before, hw⟩
    have hself : t.Borrows (.worker w) ↔ s.Borrows (.worker w) := by
      rw [State.borrows_worker, State.borrows_worker, move.worker, if_pos rfl, before]
      simp only [Option.some.injEq, reduceCtorEq, exists_false, iff_false]
      simpa using hnot
    have hsum := State.total_worker (f := Phase.lent) (g := CallPhase.lent) before hw hphases
    have hborrowers := borrows_same (borrows_workers move hphase) hself
    obtain ⟨c, rfl, rfl⟩ | ⟨error, o, rfl, rfl⟩ := hloan
    · exact .lent (.worker w) c hl hborrowers hsum
    · exact .rest (hb.acquire_refused hl) hborrowers hsum
  · have move : Moves s t w _ ph' := ⟨before, hw⟩
    have hself : ¬ t.Borrows (.worker w) := by
      rw [State.borrows_worker, move.worker, if_pos rfl]
      exact hnot
    have hsum := State.total_worker (f := Phase.lent) (g := CallPhase.lent) before hw hphases
    have hborrowers := borrows_less (borrows_workers move hphase) hself
    obtain ⟨c, rfl, rfl⟩ | ⟨error, o, rfl, rfl⟩ := hloan
    · exact .collected (.worker w) c hl hborrowers hsum
    · exact .refused (.worker w) error hl hborrowers hsum

theorem Moves.lends {ph ph' : Phase κ ι} (move : Moves s t w ph ph') (pool : t.pool = s.pool)
    (hphase : ∀ id, t.phase? id = s.phase? id) (hphases : t.phases = s.phases)
    (hb : ∀ d, ph ≠ .borrowing d) (hb' : ∀ d, ph' ≠ .borrowing d) (hl : ph'.lent = ph.lent) : Lends s t := by
  have hself : t.Borrows (.worker w) ↔ s.Borrows (.worker w) := by
    rw [State.borrows_worker, State.borrows_worker, move.worker, if_pos rfl, move.before]
    simp [hb, hb']
  have hsum := State.total_worker (f := Phase.lent) (g := CallPhase.lent) move.before move.after hphases
  refine .rest pool (borrows_same (borrows_workers move hphase) hself) ?_
  unfold State.lent
  omega

theorem Works.lends [DecidableEq κ] (hb : s.pool.Balanced) (h : Works s w t out) : Lends s t := by
  cases h with
  | asked before | slept _ before =>
    exact Moves.lends (.stay before rfl) rfl (fun _ => rfl) rfl (by simp) (by simp) rfl
  | claimed entry buffer before =>
    exact Moves.lends ⟨before, rfl⟩ rfl (fun _ => rfl) rfl (by simp) (by simp) rfl
  | exited _ before => exact Moves.lends ⟨before, rfl⟩ rfl (fun _ => rfl) rfl (by simp) (by simp) rfl
  | lent drain c pool asks =>
    exact Asks.lends (t := { s with pool }.setWorker w (.ready drain c)) hb asks rfl rfl (.inl ⟨c, rfl, rfl⟩)
  | waits drain pool before acquire =>
    have move : Moves s ({ s with pool }.setWorker w (.borrowing drain)) w _ _ := ⟨before, rfl⟩
    have hself : ({ s with pool }.setWorker w (.borrowing drain)).Borrows (.worker w) := by
      rw [State.borrows_worker, move.worker, if_pos rfl]
      exact ⟨drain, rfl⟩
    have hnew : ¬ s.Borrows (.worker w) := by
      rw [State.borrows_worker, before]
      simp
    have hsum := State.total_worker (f := Phase.lent) (g := CallPhase.lent) move.before move.after rfl
    exact .waits (.worker w) acquire hnew (borrows_more (borrows_workers move fun _ => rfl) hself) hsum
  | refused drain e pool asks =>
    exact Asks.lends (t := { s with pool }.endDrain w drain (.error (.connectionFailed e.message))) hb asks
      rfl rfl (.inr ⟨e, _, rfl, rfl⟩)
  | begun drain c before => exact Moves.lends ⟨before, rfl⟩ rfl (fun _ => rfl) rfl (by simp) (by simp) rfl
  | noted entry outcome before =>
    cases outcome with
    | ok => exact Moves.lends ⟨before, rfl⟩ rfl (fun _ => rfl) rfl (by simp) (by simp) rfl
    | error => exact Moves.lends ⟨before, rfl⟩ rfl (fun _ => rfl) rfl (by simp) (by simp) rfl
  | retired entry outcome before =>
    exact Moves.lends ⟨before, rfl⟩ rfl (State.phase?_wakeAll s) (State.phases_wakeAll s) (by simp) (by simp) rfl

/-! ## Calls -/

variable {u : State κ ι} {c : Call}

theorem wait_borrows (hw : u.workers = s.workers) (hc : u.calls = s.calls) (id : Nat) (phase : CallPhase) :
    (∀ b, b ≠ .call id → ((u.wait id phase).Borrows b ↔ s.Borrows b)) ∧
      (u.wait id phase).Borrows (.call id) = (phase = .borrowing) ∧
      (u.wait id phase).lent = s.lent + phase.lent := by
  refine ⟨borrows_calls hw fun id' hne => ?_, ?_, ?_⟩
  · unfold State.phase?
    rw [State.call?_wait_of_ne u phase hne]
    unfold State.call?
    rw [hc]
  · unfold State.Borrows
    simp only
    rw [State.phase?_wait_self, Option.some.injEq]
  · rw [← lent_congr hw hc]
    exact State.total_wait u id phase

theorem wait_lends {phase : CallPhase} (free : s.call? id = none) (hw : u.workers = s.workers)
    (hc : u.calls = s.calls) (pool : u.pool = s.pool) (hn : phase ≠ .borrowing) (hl : phase.lent = 0) :
    Lends s (u.wait id phase) := by
  obtain ⟨hother, hself, hlent⟩ := wait_borrows hw hc id phase
  refine .rest pool (borrows_same hother ?_) ?_
  · rw [hself, State.borrows_call, State.phase?, free]
    simpa using hn
  · omega

theorem Makes.lends [DecidableEq κ] {a? : Option (Acceptance κ ι)} (hb : s.pool.Balanced)
    (free : s.call? id = none) (h : Makes s id e t out a?) : Lends s t := by
  have hnew : ¬ s.Borrows (.call id) := by
    rw [State.borrows_call, State.phase?, free]
    simp
  cases h with
  | fenced key item => exact wait_lends free rfl rfl rfl (by simp) rfl
  | stalled key item => exact wait_lends free rfl rfl rfl (by simp) rfl
  | barrier => exact wait_lends free rfl rfl rfl (by simp) rfl
  | closing => exact wait_lends free rfl rfl rfl (by simp) rfl
  | lent c pool _ acquire =>
    obtain ⟨hother, hself, hlent⟩ := wait_borrows (u := { s with pool }) rfl rfl id (.holding c)
    refine .lent (.call id) c acquire (borrows_same hother (iff_of_false ?_ hnew)) hlent
    rw [hself]
    simp
  | borrowing pool _ acquire =>
    obtain ⟨hother, hself, hlent⟩ := wait_borrows (u := { s with pool }) rfl rfl id .borrowing
    exact .waits (.call id) acquire hnew (borrows_more hother (hself ▸ rfl)) hlent
  | unlent error pool _ acquire => exact .of_same rfl rfl (hb.acquire_refused acquire)
  | _ => exact .of_same rfl rfl rfl

theorem Alike.goOn (h : Alike s u id c) (phase : CallPhase) :
    (∀ b, b ≠ .call id → ((u.goOn id phase).Borrows b ↔ s.Borrows b)) ∧
      (u.goOn id phase).Borrows (.call id) = (phase = .borrowing) ∧
      (u.goOn id phase).lent + c.phase.lent = s.lent + phase.lent := by
  obtain ⟨c', hc', hphase⟩ := h.call
  refine ⟨borrows_calls h.workers fun id' hne => ?_, ?_, ?_⟩
  · unfold State.phase?
    rw [State.call?_goOn_of_ne u phase hne]
    exact h.phase id'
  · unfold State.Borrows
    simp only
    rw [State.phase?_goOn hc', Option.some.injEq]
  · exact h.total_goOn phase

theorem Alike.leave (h : Alike s u id c) :
    (∀ b, b ≠ .call id → ((u.leave id).Borrows b ↔ s.Borrows b)) ∧ ¬ (u.leave id).Borrows (.call id) ∧
      (u.leave id).lent + c.phase.lent = s.lent := by
  obtain ⟨c', hc', hphase⟩ := h.call
  refine ⟨borrows_calls h.workers fun id' hne => ?_, ?_, ?_⟩
  · unfold State.phase?
    rw [State.call?_leave_of_ne u hne]
    exact h.phase id'
  · rw [State.borrows_call, State.phase?_leave_self]
    simp
  · exact h.total_leave

theorem Alike.goes {phase : CallPhase} (h : Alike s u id c) (hc : s.call? id = some c)
    (pool : u.pool = s.pool) (hn : c.phase ≠ .borrowing) (hn' : phase ≠ .borrowing)
    (hl : phase.lent = c.phase.lent) : Lends s (u.goOn id phase) := by
  obtain ⟨hother, hself, hlent⟩ := h.goOn phase
  refine .rest pool (borrows_same hother ?_) ?_
  · rw [hself, State.borrows_call, State.phase?_of_call hc]
    simp [hn, hn']
  · omega

theorem Alike.leaves (h : Alike s u id c) (hc : s.call? id = some c) (pool : u.pool = s.pool)
    (hn : c.phase ≠ .borrowing) (hl : c.phase.lent = 0) : Lends s (u.leave id) := by
  obtain ⟨hother, hself, hlent⟩ := h.leave
  refine .rest pool (borrows_same hother (iff_of_false hself ?_)) ?_
  · rw [State.borrows_call, State.phase?_of_call hc]
    simpa using hn
  · omega

theorem asleep_lends (hc : s.call? id = some c) : Lends s (s.mapCall id fun c => { c with woken := false }) := by
  have hphases : (s.mapCall id fun c => { c with woken := false }).phases = s.phases :=
    State.phases_mapCall s id fun _ => rfl
  refine .rest rfl (borrows_same (b := .call id) (borrows_calls rfl fun id' hne => ?_) ?_) ?_
  · unfold State.phase?
    exact congrArg _ (State.call?_mapCall_of_ne s _ (fun _ => rfl) hne)
  · rw [State.borrows_call, State.borrows_call, State.phase?_asleep hc, State.phase?_of_call hc]
  · unfold State.lent State.total
    rw [hphases]
    rfl

theorem fenced_lends {receipt : Receipt} (hd : s.Distinct) (hc : s.call? id = some c)
    (phase : c.phase = .stalled receipt true) : Lends s ((s.leave id).barrier id).1 := by
  obtain ⟨hother, _, hlent⟩ := (hd.alike hc rfl rfl).leave
  rw [phase] at hlent
  refine .rest rfl (borrows_same (b := .call id) (fun b hb => ?_) ?_) ?_
  · have hfence : ∀ id', id ≠ id' → ((s.leave id).barrier id).1.phase? id' = (s.leave id).phase? id' := by
      intro id' hne
      unfold State.phase?
      exact congrArg _ (State.call?_wait_of_ne _ _ hne)
    have hworkers : ((s.leave id).barrier id).1.workers = (s.leave id).workers := rfl
    exact (borrows_calls hworkers hfence b hb).trans (hother b hb)
  · rw [State.borrows_call, State.borrows_call, State.phase?_of_call (State.call?_barrier (s.leave id) id),
      State.phase?_of_call hc, phase]
    simp
  · have := State.total_wait (f := Phase.lent) (g := CallPhase.lent)
      { s.leave id with counters := (s.leave id).counters.recordFlush } id (.fence s.buffer.last)
    simp only [CallPhase.lent] at this hlent
    exact this.trans hlent

theorem Looks.lends [Named κ] (hd : s.Distinct) (hc : s.call? id = some c) (h : Looks s id c t out) :
    Lends s t := by
  cases h with
  | asleep => exact asleep_lends hc
  | released receipt phase =>
    exact (hd.alike hc rfl rfl).leaves hc rfl (by simp [phase]) (by simp [phase, CallPhase.lent])
  | fenced receipt phase => exact fenced_lends hd hc phase
  | reported target phase =>
    exact (hd.alike hc (u := { s with failure := none }) rfl rfl).leaves hc rfl (by simp [phase])
      (by simp [phase, CallPhase.lent])
  | flushed target phase =>
    exact (hd.alike hc (u := { s with failure := none }) rfl rfl).goes hc rfl (by simp [phase]) (by simp)
      (by simp [phase, CallPhase.lent])
  | shut flushed phase =>
    exact (hd.alike_shut hc).goes hc rfl (by simp [phase]) (by simp) (by simp [phase, CallPhase.lent])
  | taken flushed phase =>
    exact (hd.alike hc (u := { s with unjoined := [] }) rfl rfl).goes hc rfl (by simp [phase]) (by simp)
      (by simp [phase, CallPhase.lent])
  | joined flushed workers phase =>
    obtain ⟨hother, hself, hlent⟩ :=
      (hd.alike hc (u := { s with pool := s.pool.close.2 }) rfl rfl).goOn (.ending flushed)
    refine .closed rfl (borrows_same hother ?_) ?_
    · rw [hself, State.borrows_call, State.phase?_of_call hc, phase]
      simp
    · rw [phase] at hlent
      exact hlent
  | ended flushed phase =>
    exact (hd.alike hc (u := { s with failure := heldBehind s.failure flushed }) rfl rfl).leaves hc rfl
      (by simp [phase]) (by simp [phase, CallPhase.lent])
  | lent conn pool phase collect =>
    obtain ⟨hother, hself, hlent⟩ := (hd.alike hc (u := { s with pool }) rfl rfl).goOn (.holding conn)
    rw [phase] at hlent
    refine .collected (.call id) conn collect (borrows_less hother ?_) hlent
    rw [hself]
    simp
  | refused error pool phase collect =>
    obtain ⟨hother, hself, hlent⟩ := (hd.alike hc (u := { s with pool }) rfl rfl).leave
    rw [phase] at hlent
    exact .refused (.call id) error collect (borrows_less hother hself) hlent

/-! ## Steps -/

variable [DecidableEq κ] [Named κ]

theorem step_lends (hb : s.pool.Balanced) (hd : s.Distinct) (h : step s e = some (t, out)) : Lends s t := by
  cases step_cases h with
  | made _ _ _ _ _ _ free makes => exact makes.lends hb free
  | request id conn holds =>
    obtain ⟨c, hc, hphase⟩ := Option.map_eq_some_iff.mp holds
    exact (hd.alike hc rfl rfl).goes hc rfl (by simp [hphase]) (by simp) (by simp [hphase, CallPhase.lent])
  | giveBack id conn result holds =>
    obtain ⟨c, hc, hphase⟩ := Option.map_eq_some_iff.mp holds
    obtain ⟨hother, hself, hlent⟩ :=
      (hd.alike hc (u := { s with pool := s.pool.giveBack conn }) rfl rfl).leave
    rw [hphase] at hlent
    refine .returned conn rfl (borrows_same hother (iff_of_false hself ?_)) hlent
    rw [State.borrows_call, holds]
    simp
  | work w _ _ works => exact works.lends hb
  | finish w outcome drain conn before =>
    have move : Moves s ({ s with pool := s.pool.giveBack conn }.endDrain w drain outcome) w _ _ :=
      ⟨before, rfl⟩
    have hsum := State.total_worker (f := Phase.lent) (g := CallPhase.lent) move.before move.after rfl
    refine .returned conn rfl (borrows_same (borrows_workers move fun _ => rfl) ?_) hsum
    rw [State.borrows_worker, State.borrows_worker, move.worker, if_pos rfl, before]
    simp
  | look _ _ _ _ call looks => exact looks.lends hd call
  | closePool => exact .closed rfl (fun _ => Iff.rfl) rfl
  | expire =>
    refine .rest rfl (fun b => ?_) (State.total_wakeAll _)
    cases b with
    | worker w => exact Iff.rfl
    | call id =>
      have hphase : s.shutDown.phase? id = s.phase? id := State.phase?_wakeAll _ id
      rw [State.borrows_call, State.borrows_call, hphase]
  | _ => exact .of_same rfl rfl rfl

theorem Lending.step (hs : Lending s) (hb : s.pool.Balanced) (hd : s.Distinct)
    (h : Queue.step s e = some (t, out)) : Lending t := hs.lends hb (step_lends hb hd h)

theorem Begins.lending {config : QueueConfig} {connections : List Connection} {events : List (Event κ ι)}
    (h : Begins config connections s) (hr : run s events = some (t, out)) : Lending t := by
  refine run_induction (P := fun _ _ t => Lending t) ?_ ?_ hr
  · obtain ⟨pool, hp, _, hs⟩ := h.eq
    obtain ⟨hkept, hnobody⟩ := Pool.ofConnections_kept hp
    have hlent : s.lent = 0 := by
      rw [hs]
      simp [State.lent, State.total, State.phases, Phase.lent, Phase.connection?]
    have hpool : s.pool = pool := by rw [hs]
    refine ⟨by rw [hlent, hpool]; exact hkept, fun b => ?_⟩
    rw [hpool, hnobody]
    cases b with
    | worker w =>
      rw [State.borrows_worker, hs]
      simp [List.getElem?_replicate]
    | call id =>
      rw [State.borrows_call, h.phase? id]
      simp
  · intro events o t e u o' hr hl he
    exact hl.step (h.tended.run hr).balanced (h.distinct hr) he

end WriteBehind.Queue
