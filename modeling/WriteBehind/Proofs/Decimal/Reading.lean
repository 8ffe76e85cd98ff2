import WriteBehind.Decimal.Layout
import WriteBehind.Proofs.Decimal.Shortest

/-!
# Decimals in full say what their digits say

Where the point stands among the digits, and which zeros are written beside them, is decided by the scale.
The reader below takes a decimal at its word: all digits as one number, and each place behind the point
makes it ten times less.
-/

namespace WriteBehind.Decimal

/-- The number that a decimal without sign and exponent says. -/
def read? (text : String) : Option ℚ :=
  let whole := text.toList.takeWhile (· ≠ '.')
  let places := (text.toList.dropWhile (· ≠ '.')).tail
  if whole ≠ [] ∧ ∀ c ∈ whole ++ places, c.isDigit = true then
    some ((Nat.ofDigitChars 10 (whole ++ places) 0 : ℚ) / 10 ^ places.length)
  else
    none

variable {whole places : List Char}

theorem ne_point_of_isDigit {c : Char} (h : c.isDigit = true) : decide (c ≠ '.') = true := by
  rw [decide_eq_true_iff]
  rintro rfl
  exact absurd h (by decide)

theorem read?_pointed (hne : whole ≠ []) (h : ∀ c ∈ whole ++ places, c.isDigit = true) :
    read? (String.ofList whole ++ "." ++ String.ofList places) =
      some ((Nat.ofDigitChars 10 (whole ++ places) 0 : ℚ) / 10 ^ places.length) := by
  have hwhole : ∀ c ∈ whole, decide (c ≠ '.') = true := fun c hc =>
    ne_point_of_isDigit (h c (List.mem_append_left _ hc))
  have htext : (String.ofList whole ++ "." ++ String.ofList places).toList = whole ++ '.' :: places := by
    simp
  unfold read?
  rw [htext, List.takeWhile_append_of_pos hwhole, List.dropWhile_append_of_pos hwhole]
  simp only [ne_eq, not_true_eq_false, decide_false, Bool.false_eq_true, not_false_eq_true,
    List.takeWhile_cons_of_neg, List.dropWhile_cons_of_neg, List.append_nil, List.tail_cons]
  exact if_pos ⟨hne, h⟩

theorem read?_whole (hne : whole ≠ []) (h : ∀ c ∈ whole, c.isDigit = true) :
    read? (String.ofList whole) = some (Nat.ofDigitChars 10 whole 0 : ℚ) := by
  have hwhole : ∀ c ∈ whole, decide (c ≠ '.') = true := fun c hc => ne_point_of_isDigit (h c hc)
  unfold read?
  rw [String.toList_ofList, List.takeWhile_eq_self_iff.mpr hwhole, List.dropWhile_eq_nil_iff.mpr hwhole]
  simp only [List.tail_nil, List.append_nil, List.length_nil, pow_zero, div_one]
  exact if_pos ⟨hne, h⟩

theorem isDigit_toDigits (n : ℕ) : ∀ c ∈ Nat.toDigits 10 n, c.isDigit = true :=
  fun _ h => Nat.isDigit_of_mem_toDigits (by decide) (by decide) h

theorem isDigit_replicate (n : ℕ) : ∀ c ∈ List.replicate n '0', c.isDigit = true := by
  intro c hc
  rw [List.eq_of_mem_replicate hc]
  rfl

theorem ofDigitChars_zeros (n k : ℕ) :
    Nat.ofDigitChars 10 (Nat.toDigits 10 n ++ List.replicate k '0') 0 = n * 10 ^ k := by
  rw [Nat.ofDigitChars_append, Nat.ofDigitChars_ten_toDigits, Nat.ofDigitChars_replicate_zero, mul_comm]

theorem ofDigitChars_after_zeros (k n : ℕ) :
    Nat.ofDigitChars 10 (List.replicate k '0' ++ Nat.toDigits 10 n) 0 = n := by
  rw [Nat.ofDigitChars_append, Nat.ofDigitChars_replicate_zero, mul_zero, Nat.ofDigitChars_ten_toDigits]

theorem read?_full {l : Layout} (hwhole : l.pointZero = false) (d : Digits) :
    read? (l.full d) = some d.value := by
  have hdigits := isDigit_toDigits d.digits
  obtain ⟨digits, scale⟩ := d
  unfold Layout.full Digits.value
  dsimp only at hdigits ⊢
  rw [hwhole]
  by_cases hscale : 0 ≤ scale
  · obtain ⟨n, rfl⟩ := Int.eq_ofNat_of_zero_le hscale
    have hall : ∀ c ∈ Nat.toDigits 10 digits ++ List.replicate n '0', c.isDigit = true :=
      List.forall_mem_append.mpr ⟨hdigits, isDigit_replicate n⟩
    have hread := read?_whole (List.append_ne_nil_of_left_ne_nil Nat.toDigits_ne_nil _) hall
    rw [ofDigitChars_zeros, String.ofList_append] at hread
    rw [if_pos hscale, if_neg Bool.false_ne_true, String.append_empty, Int.toNat_natCast, zeros, hread]
    push_cast
    rfl
  obtain ⟨n, rfl⟩ := Int.exists_eq_neg_ofNat (not_le.mp hscale).le
  rw [if_neg hscale]
  split
  · rename_i hpoint
    -- The point stands between two digits.
    have hcut := List.take_append_drop (((Nat.toDigits 10 digits).length : Int) + -(n : Int)).toNat
      (Nat.toDigits 10 digits)
    rw [read?_pointed ?_ (by rwa [hcut]), hcut, Nat.ofDigitChars_ten_toDigits, zpow_neg, zpow_natCast,
      List.length_drop, div_eq_mul_inv]
    · congr 4
      omega
    · rw [ne_eq, List.take_eq_nil_iff, not_or]
      exact ⟨by omega, Nat.toDigits_ne_nil⟩
  · rename_i hpoint
    -- The point stands in front of zeros and all digits.
    obtain ⟨k, hk⟩ : ∃ k : ℕ, -(((Nat.toDigits 10 digits).length : Int) + -(n : Int)) = k :=
      Int.eq_ofNat_of_zero_le (by omega)
    have hall : ∀ c ∈ ['0'] ++ (List.replicate k '0' ++ Nat.toDigits 10 digits), c.isDigit = true := by
      refine List.forall_mem_append.mpr ⟨by simp, List.forall_mem_append.mpr ⟨isDigit_replicate k, hdigits⟩⟩
    have hread := read?_pointed (List.cons_ne_nil _ _) hall
    rw [← List.append_assoc, List.singleton_append, ← List.replicate_succ, ofDigitChars_after_zeros] at hread
    have htext : "0." ++ zeros k ++ String.ofList (Nat.toDigits 10 digits) = String.ofList ['0'] ++ "." ++
        String.ofList (List.replicate k '0' ++ Nat.toDigits 10 digits) := by
      simp [zeros, ← String.toList_inj]
    rw [hk, Int.toNat_natCast, htext, hread, zpow_neg, zpow_natCast, div_eq_mul_inv,
      List.length_append, List.length_replicate]
    congr 4
    omega

end WriteBehind.Decimal
