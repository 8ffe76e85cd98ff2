import Mathlib.Data.List.Nodup
import WriteBehind.Proofs.Buffer.Valid

/-!
# What can be claimed

The identities that are pending and not in flight. An insert adds at most one of them, a claim takes one
away, and a completion adds one at most, and none unless it says so.
-/

namespace WriteBehind.Buffer

variable {κ ι : Type} [DecidableEq κ] {b b' : Buffer κ ι} {e : Claimed κ ι} {k key : κ} {q : Sequence}

/-- The identities with a pending entry that can be claimed, oldest first. -/
def claimable (b : Buffer κ ι) : List κ := (b.order.map (·.2)).filter fun k => !b.inFlight.contains k

theorem Valid.mem_keys (hv : b.Valid) : k ∈ b.order.map (·.2) ↔ b.pending.contains k = true := by
  rw [Table.contains, Option.isSome_iff_exists, List.mem_map]
  constructor
  · rintro ⟨⟨q, k⟩, hm, rfl⟩
    obtain ⟨p, hp, _⟩ := (hv.mem_order q k).mp hm
    exact ⟨p, hp⟩
  · rintro ⟨p, hp⟩
    exact ⟨(p.sequence, k), (hv.mem_order _ _).mpr ⟨p, hp, rfl⟩, rfl⟩

theorem Valid.mem_claimable (hv : b.Valid) :
    k ∈ b.claimable ↔ b.pending.contains k = true ∧ b.inFlight.contains k = false := by
  unfold claimable
  rw [List.mem_filter, hv.mem_keys, Bool.not_eq_true']

theorem Valid.claimable_eq_nil (hv : b.Valid) (h : ∀ k q, b.Waits k q → b.inFlight.contains k = true) :
    b.claimable = [] := by
  refine List.eq_nil_iff_forall_not_mem.mpr fun k hk => ?_
  obtain ⟨hp, hf⟩ := hv.mem_claimable.mp hk
  obtain ⟨p, hp⟩ := Option.isSome_iff_exists.mp hp
  rw [h k p.sequence ⟨p, hp, rfl⟩] at hf
  cases hf

/-! ## Counts -/

theorem insert_claimable (b : Buffer κ ι) (key : κ) (item : ι) :
    (b.insert key item).2.claimable.length ≤
      b.claimable.length + if (b.insert key item).1.isCoalesced then 0 else 1 := by
  unfold claimable
  rw [insert_inFlight]
  cases hp : b.pending.get? key with
  | some p => simp [insert_coalesced hp]
  | none =>
    rw [insert_new hp, List.map_append, List.filter_append, List.length_append]
    exact Nat.add_le_add_left (List.length_filter_le _ _) _

theorem Valid.claim_claimable (hv : b.Valid) (h : b.claim = (some e, b')) :
    b'.claimable.length < b.claimable.length := by
  obtain ⟨_, hfree, l₁, l₂, horder, _, rfl⟩ := hv.claim_some h
  have hself : (!b.inFlight.contains e.key) = true := by simp [Table.contains, hfree]
  -- What is in flight later on takes nothing away from what is not.
  have hmore : ∀ l : List (Sequence × κ),
      ((l.map (·.2)).filter fun k => !(b.inFlight.set e.key e.sequence).contains k).length ≤
        ((l.map (·.2)).filter fun k => !b.inFlight.contains k).length := by
    intro l
    refine (List.monotone_filter_right _ fun k hk => ?_).length_le
    have hk : ((b.inFlight.set e.key e.sequence).get? k).isSome = false := by simpa [Table.contains] using hk
    rw [Table.get?_set] at hk
    split at hk
    · cases hk
    · simp [Table.contains, hk]
  unfold claimable
  have h₁ := hmore l₁
  have h₂ := hmore l₂
  simp only [horder, List.map_append, List.map_cons, List.filter_append, List.filter_cons, hself, if_true,
    List.length_append, List.length_cons]
  omega

theorem length_filter_le_add_count {p p' : κ → Bool} {l : List κ}
    (h : ∀ k, p' k = true → p k = true ∨ k = key) :
    (l.filter p').length ≤ (l.filter p).length + l.count key := by
  induction l with
  | nil => simp
  | cons k l ih =>
    have hk := h k
    have hless : (l.filter p).length ≤ ((k :: l).filter p).length :=
      ((List.sublist_cons_self k l).filter p).length_le
    rw [List.count_cons, List.filter_cons]
    by_cases hp' : p' k = true
    · rcases hk hp' with hp | rfl
      · simp only [List.filter_cons, hp, hp', if_true, List.length_cons]
        omega
      · simp only [hp', if_true, List.length_cons, beq_self_eq_true]
        omega
    · simp only [hp', Bool.false_eq_true, if_false]
      omega

theorem Valid.complete_claimable (hv : b.Valid) (key : κ) (q : Sequence) :
    (b.complete key q).2.claimable.length ≤
      b.claimable.length + if (b.complete key q).1 then 1 else 0 := by
  have hcount : (b.order.map (·.2)).count key ≤ if b.pending.contains key then 1 else 0 := by
    split
    · exact List.nodup_iff_count_le_one.mp hv.keys_nodup key
    · rename_i hp
      exact Nat.le_of_eq (List.count_eq_zero.mpr fun hm => hp (hv.mem_keys.mp hm))
  refine Nat.le_trans (length_filter_le_add_count fun k hk => ?_) (Nat.add_le_add_left hcount _)
  by_cases heq : k = key
  · exact .inr heq
  · have hsame : (b.complete key q).2.inFlight.contains k = b.inFlight.contains k := by
      unfold Buffer.complete Table.contains
      simp only
      split
      · rw [Table.get?_erase, if_neg (Ne.symm heq)]
      · rfl
    exact .inl (hsame ▸ hk)

end WriteBehind.Buffer
