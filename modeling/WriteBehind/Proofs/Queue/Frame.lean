import Mathlib.Data.List.TakeWhile
import WriteBehind.Proofs.Buffer.Valid
import WriteBehind.Queue.Step

/-!
# Calls and workers after a change

The calls that are found after one of them begins, moves on, returns or is woken, and the entry that
a worker drains after a worker moved.
-/

namespace WriteBehind.Queue

variable {κ ι : Type}

/-! ## Phases -/

namespace Phase

def awaiting? : Phase κ ι → Option (Claimed κ ι)
  | claimed d | borrowing d | ready d _ => some d.entry
  | _ => none

theorem entry?_of_awaiting {ph : Phase κ ι} {e : Claimed κ ι} (h : ph.awaiting? = some e) :
    ph.entry? = some e := by
  cases ph <;> simp_all [awaiting?, entry?]

end Phase

def CallPhase.target? : CallPhase → Option Sequence
  | .fence target | .closing target => some target
  | _ => none

namespace State

variable {s : State κ ι} {id id' : Nat} {c : Call} {w w' : Nat}

def draining (s : State κ ι) (w : Nat) : Option (Claimed κ ι) := s.workers[w]?.bind Phase.entry?

def awaiting (s : State κ ι) (w : Nat) : Option (Claimed κ ι) := s.workers[w]?.bind Phase.awaiting?

def phase? (s : State κ ι) (id : Nat) : Option CallPhase := (s.call? id).map (·.phase)

def fence? (s : State κ ι) (id : Nat) : Option Sequence := (s.call? id).bind fun c => c.phase.target?

/-! ## Calls -/

theorem phase?_of_call (h : s.call? id = some c) : s.phase? id = some c.phase := by
  unfold phase?
  rw [h]
  rfl

theorem fence?_eq (s : State κ ι) (id : Nat) : s.fence? id = (s.phase? id).bind (·.target?) := by
  unfold fence? phase?
  cases s.call? id <;> rfl

theorem holding?_eq {conn : Connection} (h : s.holding? id = some conn) :
    s.phase? id = some (.holding conn) := by
  unfold holding? at h
  unfold phase?
  cases hc : s.call? id with
  | none => simp [hc] at h
  | some c =>
    simp only [hc, bind, Option.bind_some] at h
    split at h
    · rename_i hp
      cases h
      simp [hp]
    · cases h

theorem call?_id (h : s.call? id = some c) : c.id = id := by
  simpa using List.find?_some h

theorem call?_wait (s : State κ ι) (id id' : Nat) (phase : CallPhase) :
    (s.wait id phase).call? id' = if id = id' then some { id, phase } else s.call? id' := by
  have hsplit : s.calls.takeWhile (fun c => decide (c.id < id)) ++
      s.calls.dropWhile (fun c => decide (c.id < id)) = s.calls := List.takeWhile_append_dropWhile
  unfold call? wait
  by_cases h : id = id'
  · subst h
    have hnone : (s.calls.takeWhile fun c => decide (c.id < id)).find? (fun c => c.id == id) = none := by
      refine List.find?_eq_none.mpr fun c hc => ?_
      have := List.mem_takeWhile_imp hc
      simp only [decide_eq_true_eq] at this
      simp only [beq_iff_eq]
      omega
    simp [List.find?_append, hnone]
  · have hne : (id == id') = false := by simp [h]
    rw [if_neg h]
    simp only [List.find?_append, List.find?_cons, hne]
    rw [← List.find?_append, hsplit]

theorem call?_leave (s : State κ ι) (id id' : Nat) :
    (s.leave id).call? id' = if id = id' then none else s.call? id' := by
  unfold call? leave
  rw [List.find?_filter]
  split
  · subst_vars
    refine List.find?_eq_none.mpr fun c _ => ?_
    simp
  · rename_i h
    congr 1
    funext c
    by_cases hc : c.id = id'
    · simp [hc, Ne.symm h]
    · simp [hc]

theorem call?_map (s : State κ ι) (f : Call → Call) (hf : ∀ c, (f c).id = c.id) (id : Nat) :
    { s with calls := s.calls.map f }.call? id = (s.call? id).map f := by
  unfold call?
  rw [List.find?_map]
  congr 2
  funext c
  simp [hf]

theorem call?_wakeAll (s : State κ ι) (id : Nat) :
    s.wakeAll.call? id = (s.call? id).map fun c => { c with woken := true } :=
  call?_map s (fun c => { c with woken := true }) (fun _ => rfl) id

theorem phase?_wakeAll (s : State κ ι) (id : Nat) : s.wakeAll.phase? id = s.phase? id := by
  unfold phase?
  rw [call?_wakeAll]
  cases s.call? id <;> rfl

theorem call?_mapCall (s : State κ ι) (id id' : Nat) (f : Call → Call) (hf : ∀ c, (f c).id = c.id) :
    (s.mapCall id f).call? id' = (s.call? id').map fun c => if id = id' then f c else c := by
  have := call?_map s (fun c => if c.id = id then f c else c) (by intro c; split <;> simp [hf]) id'
  unfold mapCall
  rw [this]
  cases hc : s.call? id' with
  | none => rfl
  | some c => simp [call?_id hc, eq_comm]

theorem call?_mapCall_self {c : Call} {f : Call → Call} (hf : ∀ c, (f c).id = c.id)
    (hc : s.call? id = some c) : (s.mapCall id f).call? id = some (f c) := by
  rw [call?_mapCall s id id f hf, hc]
  simp

theorem call?_mapCall_of_ne (s : State κ ι) (f : Call → Call) (hf : ∀ c, (f c).id = c.id) (h : id ≠ id') :
    (s.mapCall id f).call? id' = s.call? id' := by
  rw [call?_mapCall s id id' f hf]
  simp [h]

theorem call?_goOn {c : Call} (hc : s.call? id = some c) (phase : CallPhase) :
    (s.goOn id phase).call? id = some { c with phase } :=
  call?_mapCall_self (fun _ => rfl) hc

theorem call?_goOn_of_ne (s : State κ ι) (phase : CallPhase) (h : id ≠ id') :
    (s.goOn id phase).call? id' = s.call? id' :=
  call?_mapCall_of_ne s (fun c => { c with phase }) (fun _ => rfl) h

/-! ## Workers -/

theorem worker_set {ph ph' : Phase κ ι} {t : State κ ι} (h : s.workers[w]? = some ph)
    (ht : t.workers = s.workers.set w ph') (w' : Nat) :
    t.workers[w']? = if w = w' then some ph' else s.workers[w']? := by
  have hlt : w < s.workers.length := (List.getElem?_eq_some_iff.mp h).1
  rw [ht, List.getElem?_set]
  by_cases hw : w = w'
  · subst hw; simp [hlt]
  · simp [hw]

theorem draining_congr {t : State κ ι} (ht : t.workers = s.workers) (w : Nat) :
    t.draining w = s.draining w := by
  unfold draining; rw [ht]

theorem awaiting_congr {t : State κ ι} (ht : t.workers = s.workers) (w : Nat) :
    t.awaiting w = s.awaiting w := by
  unfold awaiting; rw [ht]

theorem draining_of_awaiting {e : Claimed κ ι} (h : s.awaiting w = some e) : s.draining w = some e := by
  obtain ⟨ph, hph, he⟩ := Option.bind_eq_some_iff.mp h
  exact Option.bind_eq_some_iff.mpr ⟨ph, hph, Phase.entry?_of_awaiting he⟩

end State

end WriteBehind.Queue
