import WriteBehind.Proofs.Buffer.Runs
import WriteBehind.Proofs.Pool.Moves

/-!
# How the depth of a buffer changes

A payload that is folded into a pending entry creates none and adds nothing to the depth. A claim moves an
entry into flight, and an entry that retires makes the depth one less.
-/

namespace WriteBehind.Buffer

variable {κ ι : Type} [DecidableEq κ] {b : Buffer κ ι} {key : κ} {q : Sequence}

theorem insert_depth (b : Buffer κ ι) (key : κ) (item : ι) :
    (b.insert key item).2.depth = b.depth + if b.isPending key then 0 else 1 := by
  unfold depth isPending Table.contains
  rw [insert_outstanding]
  cases b.pending.get? key <;> simp

theorem insert_last (b : Buffer κ ι) (key : κ) (item : ι) :
    (b.insert key item).2.last.val = b.last.val + if b.isPending key then 0 else 1 := by
  unfold isPending Table.contains
  cases hp : b.pending.get? key with
  | some p => simp [insert_coalesced hp]
  | none => simp [insert_new hp, Sequence.next]

theorem insert_isCoalesced (b : Buffer κ ι) (key : κ) (item : ι) :
    (b.insert key item).1.isCoalesced = b.isPending key := by
  unfold isPending Table.contains
  cases hp : b.pending.get? key with
  | some p => simp [insert_coalesced hp, Inserted.isCoalesced]
  | none => simp [insert_new hp, Inserted.isCoalesced]

theorem Valid.claim_flight_size {e : Claimed κ ι} {b' : Buffer κ ι} (hv : b.Valid)
    (h : b.claim = (some e, b')) : b'.inFlight.size = b.inFlight.size + 1 := by
  obtain ⟨_, fresh, _, _, _, _, rfl⟩ := hv.claim_some h
  exact Table.size_set_fresh fresh e.sequence

theorem complete_flight_size (h : b.inFlight.get? key = some q) :
    b.inFlight.size = (b.complete key q).2.inFlight.size + 1 := by
  unfold complete
  simp only [if_pos h]
  exact Table.size_erase h

theorem Valid.complete_depth (hv : b.Valid) (h : b.inFlight.get? key = some q) :
    b.depth = (b.complete key q).2.depth + 1 := by
  have hsize := complete_flight_size h
  have hpending : (b.complete key q).2.pending.size = b.pending.size := rfl
  rw [hv.depth_eq, (hv.complete h).depth_eq, hpending]
  omega

end WriteBehind.Buffer
