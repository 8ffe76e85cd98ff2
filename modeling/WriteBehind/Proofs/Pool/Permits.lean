import Mathlib.Data.List.Nodup
import WriteBehind.Proofs.Pool.Balance

/-!
# Permits and borrowers

A permit is free, promised, or used for a connection that is lent. A borrower that waits is enrolled
once, and in an open pool nobody waits for a turn while a permit is free.
-/

namespace WriteBehind.Pool

variable {γ τ : Type} {p p' : Pool γ τ} {ticket : τ} {c : γ} {error : Error} {lent : Nat}

def enrolled (p : Pool γ τ) : List τ := p.waiters ++ p.promised

/-- The books of a pool of which so many connections are lent. -/
structure Kept (p : Pool γ τ) (lent : Nat) : Prop where
  stocked : 0 < p.capacity
  permits : p.free + p.promised.length + lent = p.capacity
  queued : p.closed = false → p.waiters ≠ [] → p.free = 0
  distinct : p.enrolled.Nodup

theorem ofConnections_kept {connections : List γ} (h : ofConnections connections = .ok p) :
    p.Kept 0 ∧ p.enrolled = [] := by
  obtain ⟨hne, rfl⟩ := ofConnections_eq_ok.mp h
  exact ⟨⟨List.length_pos_iff.mpr hne, by simp, by simp, by simp [enrolled]⟩, rfl⟩

/-! ## Turns at the pool -/

theorem Kept.acquire_lent (h : p.Kept lent) (hb : p.Balanced) (ha : p.acquire ticket = (.lent c, p')) :
    p'.Kept (lent + 1) ∧ p'.enrolled = p.enrolled := by
  unfold acquire at ha
  split at ha
  · cases ha
  · rename_i hopen
    split at ha
    · cases ha
    · rename_i hfree
      have hidle := hb.idle_ne_nil (by simpa using hopen) (by omega)
      obtain ⟨c', idle, _, hl⟩ := lend_of_idle (p := { p with free := p.free - 1 }) hidle
      rw [hl] at ha
      cases ha
      refine ⟨⟨h.stocked, ?_, ?_, h.distinct⟩, rfl⟩
      · have := h.permits
        simp only
        omega
      · intro hc hw
        have := h.queued hc hw
        simp only
        omega

theorem Kept.acquire_waits (h : p.Kept lent) (hn : ticket ∉ p.enrolled)
    (ha : p.acquire ticket = (.waits, p')) :
    p'.Kept lent ∧ p'.enrolled.Perm (ticket :: p.enrolled) := by
  unfold acquire at ha
  split at ha
  · cases ha
  · split at ha
    · rename_i hfree
      cases ha
      have hperm : (p.waiters ++ [ticket] ++ p.promised).Perm (ticket :: p.enrolled) := by
        rw [List.append_assoc]
        exact List.perm_middle
      have hnodup := hperm.nodup_iff.mpr (List.nodup_cons.mpr ⟨hn, h.distinct⟩)
      exact ⟨⟨h.stocked, h.permits, fun _ _ => hfree, hnodup⟩, hperm⟩
    · unfold lend at ha
      split at ha <;> cases ha

theorem Balanced.acquire_refused (hb : p.Balanced) (ha : p.acquire ticket = (.refused error, p')) :
    p' = p := by
  obtain ⟨hc, _⟩ := (hb.acquire ticket).2.2 error (by rw [ha])
  unfold Pool.acquire at ha
  rw [if_pos hc] at ha
  cases ha
  rfl

theorem Kept.close (h : p.Kept lent) : p.close.2.Kept lent ∧ p.close.2.enrolled = p.enrolled :=
  ⟨⟨h.stocked, h.permits, (fun hc => by cases hc), h.distinct⟩, rfl⟩

theorem Kept.returnPermit (h : p.Kept (lent + 1)) :
    p.returnPermit.Kept lent ∧ p.returnPermit.enrolled.Perm p.enrolled := by
  have hpermits := h.permits
  unfold Pool.returnPermit
  split
  · rename_i first others hclosed hwaiters
    have hperm : (others ++ (p.promised ++ [first])).Perm p.enrolled := by
      unfold enrolled
      rw [hwaiters, ← List.append_assoc]
      exact List.perm_append_singleton _ _
    refine ⟨⟨h.stocked, ?_, ?_, hperm.nodup_iff.mpr h.distinct⟩, hperm⟩
    · simp only [List.length_append, List.length_singleton]
      omega
    · intro _ _
      exact h.queued hclosed (by simp [hwaiters])
  · rename_i hnobody
    refine ⟨⟨h.stocked, ?_, ?_, h.distinct⟩, .refl _⟩
    · simp only
      omega
    · intro hc hw
      obtain ⟨first, others, hwaiters⟩ := List.exists_cons_of_ne_nil hw
      exact absurd hwaiters (hnobody first others hc)

theorem Kept.giveBack (h : p.Kept (lent + 1)) (c : γ) :
    (p.giveBack c).Kept lent ∧ (p.giveBack c).enrolled.Perm p.enrolled :=
  Kept.returnPermit (p := { p with idle := c :: p.idle }) ⟨h.stocked, h.permits, h.queued, h.distinct⟩

variable [DecidableEq τ]

theorem Kept.erase_promised (h : p.Kept lent) (hm : ticket ∈ p.promised) :
    p.waiters ++ p.promised.erase ticket = p.enrolled.erase ticket ∧
      (p.promised.erase ticket).length + 1 = p.promised.length := by
  have hnot : ticket ∉ p.waiters := fun hw => List.disjoint_of_nodup_append h.distinct hw hm
  have hlen := List.length_erase_of_mem hm
  have hpos := List.length_pos_of_mem hm
  exact ⟨(List.erase_append_right _ hnot).symm, by omega⟩

theorem Kept.collect_lent (h : p.Kept lent) (hb : p.Balanced) (hl : p.collect ticket = (.lent c, p')) :
    p'.Kept (lent + 1) ∧ p'.enrolled = p.enrolled.erase ticket := by
  unfold collect at hl
  split at hl
  · cases hl
  · rename_i hopen
    split at hl
    · rename_i hm
      obtain ⟨herase, hlen⟩ := h.erase_promised hm
      have hidle := hb.idle_ne_nil (by simpa using hopen) (by omega)
      obtain ⟨c', idle, _, hlend⟩ := lend_of_idle (p := { p with promised := p.promised.erase ticket }) hidle
      rw [hlend] at hl
      cases hl
      refine ⟨⟨h.stocked, ?_, h.queued, ?_⟩, herase⟩
      · have := h.permits
        simp only
        omega
      · show (p.waiters ++ p.promised.erase ticket).Nodup
        rw [herase]
        exact h.distinct.erase ticket
    · cases hl

theorem Kept.collect_refused (h : p.Kept lent) (hb : p.Balanced)
    (hl : p.collect ticket = (.refused error, p')) :
    p'.Kept lent ∧ p'.enrolled = p.enrolled.erase ticket := by
  obtain ⟨hc, _⟩ := (hb.collect ticket).2.2 error (by rw [hl])
  unfold collect at hl
  rw [if_pos hc] at hl
  cases hl
  split
  · rename_i hm
    obtain ⟨herase, hlen⟩ := h.erase_promised hm
    refine ⟨⟨h.stocked, ?_, fun hopen => ?_, ?_⟩, herase⟩
    · have := h.permits
      simp only
      omega
    · simp [hc] at hopen
    · show (p.waiters ++ p.promised.erase ticket).Nodup
      rw [herase]
      exact h.distinct.erase ticket
  · rename_i hm
    have herase : p.waiters.erase ticket ++ p.promised = p.enrolled.erase ticket := by
      unfold enrolled
      by_cases hw : ticket ∈ p.waiters
      · rw [List.erase_append_left _ hw]
      · rw [List.erase_append_right _ hw, List.erase_of_not_mem hm, List.erase_of_not_mem hw]
    refine ⟨⟨h.stocked, h.permits, fun hopen => ?_, ?_⟩, herase⟩
    · simp [hc] at hopen
    · show (p.waiters.erase ticket ++ p.promised).Nodup
      rw [herase]
      exact h.distinct.erase ticket

theorem collect_waits (hl : p.collect ticket = (.waits, p')) : p.closed = false ∧ ticket ∉ p.promised := by
  unfold collect at hl
  split at hl
  · cases hl
  · rename_i hopen
    split at hl
    · unfold lend at hl
      split at hl <;> cases hl
    · rename_i hm
      exact ⟨by simpa using hopen, hm⟩

omit [DecidableEq τ] in
theorem Kept.somebody (h : p.Kept 0) (hc : p.closed = false) (hm : ticket ∈ p.waiters) :
    ∃ other, other ∈ p.promised := by
  have hfree := h.queued hc (List.ne_nil_of_mem hm)
  have hpermits := h.permits
  have hstocked := h.stocked
  exact List.exists_mem_of_length_pos (by omega)

end WriteBehind.Pool
