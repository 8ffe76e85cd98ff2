import Mathlib.Algebra.Order.BigOperators.Group.List
import Mathlib.Algebra.Order.Ring.Nat
import WriteBehind.Stats.Histogram

/-!
# Counting up to a bound

Buckets are not cumulative, but everything that is read from them is. Where the bounds ascend, the sum of
the buckets passed so far is what has been counted at or below the last of their bounds.
-/

namespace WriteBehind

/-- How much is counted in the buckets up to a bound. -/
def atMost (buckets : List (Nat × Nat)) (bound : Nat) : Nat :=
  ((buckets.filter (·.1 ≤ bound)).map (·.2)).sum

def Ascending (buckets : List (Nat × Nat)) : Prop := (buckets.map (·.1)).Pairwise (· < ·)

section
variable {done rest buckets : List (Nat × Nat)} {bound n : Nat}

theorem atMost_append (done rest : List (Nat × Nat)) (bound : Nat) :
    atMost (done ++ rest) bound = atMost done bound + atMost rest bound := by
  simp only [atMost, List.filter_append, List.map_append, List.sum_append]

theorem atMost_of_le (h : ∀ b ∈ buckets, b.1 ≤ bound) : atMost buckets bound = (buckets.map (·.2)).sum := by
  have hfilter : buckets.filter (·.1 ≤ bound) = buckets :=
    List.filter_eq_self.mpr fun b hb => decide_eq_true (h b hb)
  rw [atMost, hfilter]

theorem atMost_of_lt (h : ∀ b ∈ buckets, bound < b.1) : atMost buckets bound = 0 := by
  have hfilter : buckets.filter (·.1 ≤ bound) = [] :=
    List.filter_eq_nil_iff.mpr fun b hb => by simpa using h b hb
  rw [atMost, hfilter]
  rfl

theorem atMost_mono {bound' : Nat} (h : bound ≤ bound') (buckets : List (Nat × Nat)) :
    atMost buckets bound ≤ atMost buckets bound' := by
  have hsub : (buckets.filter (·.1 ≤ bound)).Sublist (buckets.filter (·.1 ≤ bound')) :=
    List.monotone_filter_right buckets fun b hb => decide_eq_true ((of_decide_eq_true hb).trans h)
  exact (hsub.map (·.2)).sum_le_sum fun _ _ => Nat.zero_le _

theorem atMost_le_sum (buckets : List (Nat × Nat)) (bound : Nat) :
    atMost buckets bound ≤ (buckets.map (·.2)).sum :=
  ((List.filter_sublist (l := buckets)).map Prod.snd).sum_le_sum fun _ _ => Nat.zero_le _

theorem atMost_here (h : Ascending (done ++ (bound, n) :: rest)) :
    atMost (done ++ (bound, n) :: rest) bound = (done.map (·.2)).sum + n := by
  simp only [Ascending, List.map_append, List.map_cons, List.pairwise_append, List.pairwise_cons] at h
  obtain ⟨-, ⟨hafter, -⟩, hbefore⟩ := h
  have hdone : ∀ b ∈ done, b.1 ≤ bound := fun b hb =>
    Nat.le_of_lt (hbefore b.1 (List.mem_map_of_mem hb) bound List.mem_cons_self)
  have hrest : ∀ b ∈ rest, bound < b.1 := fun b hb => hafter b.1 (List.mem_map_of_mem hb)
  rw [← List.singleton_append, atMost_append, atMost_append, atMost_of_le hdone, atMost_of_lt hrest,
    atMost_of_le (by simp)]
  simp

theorem least_of_find? {bounds : List Nat} {p : Nat → Bool} (h : bounds.Pairwise (· < ·))
    (hf : bounds.find? p = some bound) :
    bound ∈ bounds ∧ p bound = true ∧ ∀ b ∈ bounds, b < bound → p b = false := by
  obtain ⟨hp, front, back, rfl, hfront⟩ := List.find?_eq_some_iff_append.mp hf
  refine ⟨by simp, hp, fun b hb hlt => ?_⟩
  rw [List.pairwise_append, List.pairwise_cons] at h
  rcases List.mem_append.mp hb with hb | hb
  · simpa using hfront b hb
  · rcases List.mem_cons.mp hb with rfl | hb
    · exact absurd hlt (Nat.lt_irrefl b)
    · exact absurd (h.2.1.1 b hb) (Nat.lt_asymm hlt)

namespace Histogram

theorem rankBound_eq (target : Nat) (done rest : List (Nat × Nat)) (h : Ascending (done ++ rest)) :
    rankBound target (done.map (·.2)).sum rest =
      ((rest.map (·.1)).find? (target ≤ atMost (done ++ rest) ·)).getD maxWord := by
  induction rest generalizing done with
  | nil => rfl
  | cons b rest ih =>
    obtain ⟨bound, n⟩ := b
    unfold rankBound
    rw [List.map_cons, List.find?_cons, atMost_here h]
    by_cases hle : target ≤ (done.map (·.2)).sum + n
    · simp [hle]
    · have hsum : (done.map (·.2)).sum + n = ((done ++ [(bound, n)]).map (·.2)).sum := by simp
      rw [if_neg hle, decide_eq_false hle, hsum, ih _ (by rwa [List.append_assoc])]
      simp

end Histogram
end

end WriteBehind
