import WriteBehind.Proofs.Json.Number

/-!
# Numerals of binary64 numbers

A binary64 number is written with a point, with a power of ten, or with both, and the reader takes back the
numeral that was written. No digits in front are zeros in vain: the fewest digits of a number start with one
that is not, and zero itself has a single digit.
-/

namespace WriteBehind

open Decimal (Digits)

namespace Decimal

/-! ## The first digit -/

theorem Digits.strip_eq_zero {fuel : Nat} {d : Digits} (h : (d.strip fuel).digits = 0) : d.digits = 0 := by
  induction fuel generalizing d with
  | zero => exact h
  | succ fuel ih =>
    unfold strip at h
    split at h
    · have := ih h
      simp only at this
      omega
    · exact h

namespace Dyadic

variable {x : Dyadic}

theorem roundsHere_zero (hm : x.mantissa ≠ 0) (scale : Int) : x.roundsHere scale 0 = false := by
  have hquarter : 0 < x.quarter scale := Nat.mul_pos (Nat.pow_pos (by decide)) (Nat.two_pow_pos _)
  have hlow : 0 < (if x.mantissa = Nat.pow 2 52 ∧ minExponent < x.exponent then 4 * x.mantissa - 1
      else 4 * x.mantissa - 2) * x.quarter scale :=
    Nat.mul_pos (by split <;> omega) hquarter
  unfold roundsHere
  dsimp only
  rw [Nat.zero_mul]
  split <;> rw [decide_eq_false_iff_not] <;> omega

theorem gridPoint?_ne_zero (hm : x.mantissa ≠ 0) {scale : Int} {c : Nat} (h : x.gridPoint? scale = some c) :
    c ≠ 0 := by
  have hzero := roundsHere_zero hm scale
  unfold gridPoint? at h
  dsimp only at h
  split at h
  · rename_i hbelow _
    cases h
    intro heq
    rw [heq, hzero] at hbelow
    cases hbelow
  · cases h
    exact Nat.succ_ne_zero _
  · rename_i hbelow _
    cases h
    split
    · intro heq
      rw [heq, hzero] at hbelow
      cases hbelow
    · exact Nat.succ_ne_zero _
  · cases h

theorem scale_shortest_eq_zero (h : x.shortest.digits = 0) : x.shortest.scale = 0 := by
  unfold shortest at h ⊢
  split at h
  · rename_i hm
    rw [if_pos hm]
  · rename_i hm
    rw [if_neg hm]
    dsimp only at h ⊢
    cases hfound : (List.range 20).findSome? fun (n : Nat) =>
        (x.gridPoint? (x.topScale - n)).map fun c => (⟨c, x.topScale - n⟩ : Digits) with
    | none => rfl
    | some d =>
      rw [hfound] at h
      obtain ⟨n, -, hn⟩ := List.exists_of_findSome?_eq_some hfound
      obtain ⟨c, hc, rfl⟩ := Option.map_eq_some_iff.mp hn
      exact absurd (Digits.strip_eq_zero h) (gridPoint?_ne_zero hm hc)

end Dyadic

end Decimal

namespace Json

namespace Numeral

def ofDigits (negative : Bool) (d : Digits) : Numeral :=
  let text := Nat.toDigits 10 d.digits
  let point := (text.length : Int) + d.scale
  let exponent := (text.length : Int) - 1 + d.scale
  if d.digits = 0 ∨ Number.layout.inFull exponent then
    if 0 ≤ d.scale then ⟨negative, text ++ List.replicate d.scale.toNat '0', ['0'], none⟩
    else if 0 < point then ⟨negative, text.take point.toNat, text.drop point.toNat, none⟩
    else ⟨negative, ['0'], List.replicate (-point).toNat '0' ++ text, none⟩
  else
    ⟨negative, text.take 1, text.drop 1, some (decide (exponent < 0), Nat.toDigits 10 exponent.natAbs)⟩

theorem unsigned_ofDigits (negative : Bool) (d : Digits) :
    (ofDigits negative d).unsigned = (Number.layout.magnitude d).toList := by
  have hlength : 0 < (Nat.toDigits 10 d.digits).length := List.length_pos_iff.mpr Nat.toDigits_ne_nil
  unfold ofDigits Decimal.Layout.magnitude
  dsimp only
  split
  · unfold Decimal.Layout.full
    dsimp only
    split
    · simp [unsigned, power, Number.layout, Decimal.zeros]
    split
    · rename_i hscale hpoint
      have hdrop : (Nat.toDigits 10 d.digits).drop
          ((Nat.toDigits 10 d.digits).length + d.scale : Int).toNat ≠ [] := by
        rw [ne_eq, List.drop_eq_nil_iff]
        omega
      simp only [unsigned, power, if_neg hdrop]
      simp
    · simp [unsigned, power, Decimal.zeros, Nat.toDigits_ne_nil]
  · have hdrop : (Nat.toDigits 10 d.digits).drop 1 = [] ↔ (Nat.toDigits 10 d.digits).length ≤ 1 :=
      List.drop_eq_nil_iff
    have hexponent : ∀ n : Nat, (toString n).toList = Nat.toDigits 10 n := fun n => by
      show n.repr.toList = _
      rw [Nat.repr_eq_ofList_toDigits, String.toList_ofList]
    unfold Decimal.Layout.scientific
    dsimp only
    simp only [unsigned, power, hdrop, decide_eq_true_eq, String.toList_append, String.toList_ofList, hexponent]
    split <;> split <;> simp

theorem toDigits_append_ne {n : Nat} (hn : n ≠ 0) (tail : List Char) (c : Char) (cs : List Char) :
    Nat.toDigits 10 n ++ tail ≠ '0' :: c :: cs := by
  intro h
  obtain ⟨first, rest, hdigits, -⟩ := toDigits_starts n
  rw [hdigits, List.cons_append] at h
  rw [(List.cons.inj h).1] at hdigits
  exact hn (toDigits_head_zero hdigits)

theorem proper_ofDigits (negative : Bool) {d : Digits} (hzero : d.digits = 0 → d.scale = 0) :
    (ofDigits negative d).Proper := by
  have hlength : 0 < (Nat.toDigits 10 d.digits).length := List.length_pos_iff.mpr Nat.toDigits_ne_nil
  have hdigits := isDigit_of_mem (n := d.digits)
  have hzeros : ∀ n, ∀ c ∈ List.replicate n '0', c.isDigit = true := fun n c hc => by
    rw [List.eq_of_mem_replicate hc]
    rfl
  unfold ofDigits
  dsimp only
  split
  · split
    · -- A whole number: the zeros are behind its digits.
      refine ⟨by simp [Nat.toDigits_ne_nil], List.forall_mem_append.mpr ⟨hdigits, hzeros _⟩, ?_,
        by simp, fun _ h => nomatch h⟩
      intro c cs
      by_cases h : d.digits = 0
      · rw [h, hzero h]
        simp [Nat.toDigits_of_lt_base]
      · exact toDigits_append_ne h _ c cs
    · rename_i hscale
      have hne : d.digits ≠ 0 := fun h => hscale (by rw [hzero h])
      split
      · rename_i hpoint
        refine ⟨by rw [ne_eq, List.take_eq_nil_iff]; simp [Nat.toDigits_ne_nil]; omega,
          fun c hc => hdigits c (List.mem_of_mem_take hc), ?_,
          fun c hc => hdigits c (List.mem_of_mem_drop hc), fun _ h => nomatch h⟩
        intro c cs h
        dsimp only at h
        have happend := List.take_append_drop ((Nat.toDigits 10 d.digits).length + d.scale : Int).toNat
          (Nat.toDigits 10 d.digits)
        rw [h, List.cons_append] at happend
        exact hne (toDigits_head_zero happend.symm)
      · exact ⟨by simp, by simp, by simp, List.forall_mem_append.mpr ⟨hzeros _, hdigits⟩, fun _ h => nomatch h⟩
  · refine ⟨by simp [Nat.toDigits_ne_nil], fun c hc => hdigits c (List.mem_of_mem_take hc), ?_,
      fun c hc => hdigits c (List.mem_of_mem_drop hc), ?_⟩
    · intro c cs h
      have := congrArg List.length h
      simp at this
      omega
    · rintro e ⟨⟩
      exact ⟨Nat.toDigits_ne_nil, isDigit_of_mem⟩

theorem negative_ofDigits (negative : Bool) (d : Digits) : (ofDigits negative d).negative = negative := by
  unfold ofDigits
  dsimp only
  split
  · split
    · rfl
    · split <;> rfl
  · rfl

end Numeral

theorem Number.text_real {x : Float} {d : Decimal.Dyadic} (h : Decimal.Dyadic.ofFloat? x = some d) :
    (real x).text.toList = (Numeral.ofDigits d.negative d.shortest).written := by
  rw [text, h, Option.map_some, Option.getD_some, Decimal.Layout.signed, Numeral.written,
    Numeral.unsigned_ofDigits, Numeral.negative_ofDigits, String.toList_append]
  split <;> rfl

end Json

end WriteBehind
