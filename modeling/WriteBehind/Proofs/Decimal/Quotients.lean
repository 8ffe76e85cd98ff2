import WriteBehind.Proofs.Decimal.Rounding

/-!
# Quotients of binary64 numbers

What has more than 53 bits is cut off behind its leading 53, and the bits that are dropped decide whether the
last of them goes up. A quotient is cut off in the same way, and what is left over of the division counts as
one more bit. Both times the result is the number that the exact value rounds to.
-/

open Float.Model Float.Model.UnpackedFloat

namespace WriteBehind

namespace Rounding

variable {em : ExtendedMantissa} {t : ℚ}

/-! ## Bits behind the mantissa -/

/-- The number that is cut off behind the mantissa. Of what follows, one bit is kept and whether there is
anything more. -/
def Holds (em : ExtendedMantissa) (t : ℚ) : Prop :=
  let halves : ℚ := 2 * em.mantissa + em.roundBit.toNat
  if em.stickyBit then halves < 2 * t ∧ 2 * t < halves + 1 else 2 * t = halves

theorem holds_exact (n : ℕ) : Holds (ExtendedMantissa.ofMantissaAndAccuracy n .exact) n := by
  simp [Holds, ExtendedMantissa.ofMantissaAndAccuracy]

theorem holds_fraction (num : ℕ) {den : ℕ} (hden : 0 < den) :
    Holds (ExtendedMantissa.ofMantissaAndAccuracy (num / den) (accuracyOfFraction (num % den) den))
      (num / den) := by
  have hpos : (0 : ℚ) < den := by exact_mod_cast hden
  have hdiv : (num : ℚ) = den * (num / den : ℕ) + (num % den : ℕ) := by
    exact_mod_cast (Nat.div_add_mod num den).symm
  have hlt : ((num % den : ℕ) : ℚ) < den := by exact_mod_cast Nat.mod_lt num hden
  have htwice : 2 * ((num : ℚ) / den) = 2 * (num / den : ℕ) + 2 * (num % den : ℕ) / den := by
    rw [hdiv]
    field_simp
  generalize num / den = q at *
  generalize num % den = r at *
  unfold accuracyOfFraction
  split
  · rename_i hzero
    subst hzero
    simpa [Holds, ExtendedMantissa.ofMantissaAndAccuracy] using htwice
  · rename_i hrest
    have hrpos : (0 : ℚ) < r := by exact_mod_cast Nat.pos_of_ne_zero hrest
    cases hcmp : compare (2 * r) den with
    | lt =>
      have hsmall : (2 * r : ℚ) < den := by exact_mod_cast compare_lt_iff_lt.mp hcmp
      have h1 : 2 * (r : ℚ) / den < 1 := (div_lt_one hpos).mpr hsmall
      have h0 : 0 < 2 * (r : ℚ) / den := by positivity
      simp only [Holds, ExtendedMantissa.ofMantissaAndAccuracy, htwice, Bool.toNat_false, if_true]
      constructor <;> push_cast <;> linarith
    | eq =>
      have hhalf : (2 * r : ℚ) = den := by exact_mod_cast compare_eq_iff_eq.mp hcmp
      have h1 : 2 * (r : ℚ) / den = 1 := (div_eq_one_iff_eq hpos.ne').mpr hhalf
      simp [Holds, ExtendedMantissa.ofMantissaAndAccuracy, htwice, h1]
    | gt =>
      have hlarge : (den : ℚ) < 2 * r := by exact_mod_cast compare_gt_iff_gt.mp hcmp
      have h1 : 1 < 2 * (r : ℚ) / den := (one_lt_div hpos).mpr hlarge
      have h2 : 2 * (r : ℚ) / den < 2 := (div_lt_iff₀ hpos).mpr (by linarith)
      simp only [Holds, ExtendedMantissa.ofMantissaAndAccuracy, htwice, Bool.toNat_true, if_true]
      constructor <;> push_cast <;> linarith

theorem Holds.shiftRightOne (h : Holds em t) : Holds em.shiftRightOne (t / 2) := by
  obtain ⟨m, r, s⟩ := em
  have hodd : (m % 2 != 0).toNat = m % 2 := by
    rcases Nat.mod_two_eq_zero_or_one m with h | h <;> rw [h] <;> rfl
  have hm : (2 * (m / 2 : ℕ) + (m % 2 : ℕ) : ℚ) = m := by exact_mod_cast Nat.div_add_mod m 2
  cases r <;> cases s <;>
    simp only [Holds, ExtendedMantissa.shiftRightOne, hodd, hm, Bool.toNat_true, Bool.toNat_false,
      Bool.or_true, Bool.or_false, if_true, if_false, Bool.false_eq_true, Nat.cast_zero, Nat.cast_one]
      at h ⊢ <;> first | (constructor <;> linarith) | linarith

theorem shiftRight_succ (em : ExtendedMantissa) (k : ℕ) :
    em >>> (k + 1) = (em >>> k).shiftRightOne := rfl

theorem Holds.shiftRight (h : Holds em t) (k : ℕ) : Holds (em >>> k) (t / 2 ^ k) := by
  induction k with
  | zero =>
    rw [pow_zero, div_one]
    exact h
  | succ k ih =>
    rw [shiftRight_succ, pow_succ, ← div_div]
    exact ih.shiftRightOne

theorem mantissa_shiftRight (em : ExtendedMantissa) (k : ℕ) :
    (em >>> k).mantissa = em.mantissa / 2 ^ k := by
  induction k with
  | zero => exact (Nat.div_one _).symm
  | succ k ih =>
    rw [shiftRight_succ, Nat.pow_succ, ← Nat.div_div_eq_div_mul, ← ih]
    rfl

theorem Holds.mantissa_le (h : Holds em t) : em.mantissa ≤ t := by
  obtain ⟨m, r, s⟩ := em
  cases r <;> cases s <;> simp only [Holds, Bool.toNat_true, Bool.toNat_false, if_true, if_false,
    Bool.false_eq_true, Nat.cast_zero, Nat.cast_one] at h ⊢ <;> linarith

theorem roundedMantissa_bounds (em : ExtendedMantissa) :
    em.mantissa ≤ em.roundedMantissa ∧ em.roundedMantissa ≤ em.mantissa + 1 := by
  obtain ⟨m, r, s⟩ := em
  cases r <;> cases s <;> simp only [ExtendedMantissa.roundedMantissa, ExtendedMantissa.accuracy,
    Accuracy.roundToNearestEven] <;> omega

/-- The mantissa is rounded to the nearest one, and from the middle to the even one. -/
theorem Holds.rounded (h : Holds em t) :
    |t - em.roundedMantissa| < 1 / 2 ∨ |t - em.roundedMantissa| = 1 / 2 ∧ em.roundedMantissa % 2 = 0 := by
  obtain ⟨m, r, s⟩ := em
  cases r <;> cases s <;> simp only [Holds, Bool.toNat_true, Bool.toNat_false, if_true, if_false,
    Bool.false_eq_true, Nat.cast_zero, Nat.cast_one, ExtendedMantissa.roundedMantissa,
    ExtendedMantissa.accuracy, Accuracy.roundToNearestEven, abs_lt] at h ⊢
  · left
    constructor <;> linarith
  · left
    constructor <;> linarith
  · right
    refine ⟨?_, by omega⟩
    have ht : t = m + 1 / 2 := by linarith
    rcases Nat.mod_two_eq_zero_or_one m with hm | hm <;> rw [ht, hm] <;> push_cast <;> ring_nf <;> norm_num
  · left
    push_cast
    constructor <;> linarith

theorem Holds.rounds (h : Holds em t) (hm : 2 ^ 52 ≤ em.mantissa) (e : ℤ) :
    (⟨false, em.roundedMantissa, e⟩ : Decimal.Dyadic).Rounds (t * 2 ^ e) := by
  have hunit : (0 : ℚ) < 2 ^ e := zpow_pos two_pos _
  have hround := h.rounded
  have hcut := h.mantissa_le
  have hup := (roundedMantissa_bounds em).1
  unfold Decimal.Dyadic.Rounds Decimal.Dyadic.lower Decimal.Dyadic.upper
  dsimp only
  generalize em.roundedMantissa = r at *
  -- The least mantissa is never rounded to from below.
  have hlow : (r - (if r = 2 ^ 52 ∧ Decimal.Dyadic.minExponent < e then 1 / 4 else 1 / 2) : ℚ) ≤ t ∧
      (r % 2 ≠ 0 → (r - (if r = 2 ^ 52 ∧ Decimal.Dyadic.minExponent < e then 1 / 4 else 1 / 2) : ℚ) < t) := by
    split
    · rename_i hleast
      have heq : em.mantissa = r := by omega
      rw [heq] at hcut
      exact ⟨by linarith, fun _ => by linarith⟩
    · rcases hround with hnear | ⟨hhalf, heven⟩
      · have := (abs_lt.mp hnear).1
        exact ⟨by linarith, fun _ => by linarith⟩
      · have := neg_le_of_abs_le hhalf.le
        exact ⟨by linarith, fun hodd => absurd heven hodd⟩
  have hhigh : t ≤ r + 1 / 2 ∧ (r % 2 ≠ 0 → t < r + 1 / 2) := by
    rcases hround with hnear | ⟨hhalf, heven⟩
    · have := (abs_lt.mp hnear).2
      exact ⟨by linarith, fun _ => by linarith⟩
    · have := le_of_abs_le hhalf.le
      exact ⟨by linarith, fun hodd => absurd heven hodd⟩
  split
  · exact ⟨mul_le_mul_of_nonneg_right hlow.1 hunit.le, mul_le_mul_of_nonneg_right hhigh.1 hunit.le⟩
  · rename_i hodd
    exact ⟨mul_lt_mul_of_pos_right (hlow.2 hodd) hunit, mul_lt_mul_of_pos_right (hhigh.2 hodd) hunit⟩

/-- A mantissa that was rounded up to the next power of two loses its last bit. -/
theorem rounds_carry {e : ℤ} (he : Decimal.Dyadic.minExponent ≤ e) {q : ℚ}
    (h : (⟨false, 2 ^ 53, e⟩ : Decimal.Dyadic).Rounds q) :
    (⟨false, 2 ^ 52, e + 1⟩ : Decimal.Dyadic).Rounds q := by
  have hunit : (0 : ℚ) < 2 ^ e := zpow_pos two_pos _
  have hl := h.lower_le
  have hu := h.le_upper
  unfold Decimal.Dyadic.Rounds Decimal.Dyadic.lower Decimal.Dyadic.upper at *
  dsimp only at hl hu ⊢
  rw [if_neg (by norm_num)] at hl
  rw [if_pos (by norm_num), if_pos ⟨rfl, by omega⟩, zpow_add_one₀ two_ne_zero]
  push_cast at *
  constructor <;> linarith

/-! ## Rounding to 53 bits -/

theorem log2_of_leading {m : ℕ} (hm : 2 ^ 52 ≤ m) (hm' : m < 2 ^ 53) : m.log2 = 52 :=
  (Nat.log2_eq_iff (by omega)).mpr ⟨hm, hm'⟩

theorem leading_bits {m k : ℕ} (hm : m ≠ 0) (hk : m.log2 = 52 + k) :
    2 ^ 52 ≤ m / 2 ^ k ∧ m / 2 ^ k < 2 ^ 53 := by
  constructor
  · rw [Nat.le_div_iff_mul_le (Nat.two_pow_pos k), ← pow_add, ← hk]
    exact Nat.log2_self_le hm
  · rw [Nat.div_lt_iff_lt_mul (Nat.two_pow_pos k), ← pow_add, show 53 + k = m.log2 + 1 by omega]
    exact Nat.lt_log2_self

theorem shiftToTargetExponent_eq (m : ℕ) (e : ℤ) (accuracy : Accuracy) :
    shiftToTargetExponent .binary64 m e accuracy =
      (ExtendedMantissa.ofMantissaAndAccuracy m accuracy >>> (max ((m.log2 : ℤ) - 52) (-1074 - e)).toNat,
        e + (max ((m.log2 : ℤ) - 52) (-1074 - e)).toNat) := by
  have htarget : Format.binary64.targetExponent (totalExponent m e) - e =
      max ((m.log2 : ℤ) - 52) (-1074 - e) := by
    simp only [Format.targetExponent, totalExponent, Format.mantissaBits, Format.minExponent]
    omega
  simp only [shiftToTargetExponent, shiftToExponent, htarget]

theorem shiftToTargetExponent_of_lt {m : ℕ} {e : ℤ} (hm : 2 ^ 52 ≤ m) (hm' : m < 2 ^ 53) (he : -1074 ≤ e) :
    shiftToTargetExponent .binary64 m e .exact = (⟨m, false, false⟩, e) := by
  have hlog := log2_of_leading hm hm'
  have hshift : (max ((m.log2 : ℤ) - 52) (-1074 - e)).toNat = 0 := by omega
  rw [shiftToTargetExponent_eq, hshift, Int.natCast_zero, Int.add_zero]
  rfl

theorem shiftToTargetExponent_of_carry {e : ℤ} (he : -1074 ≤ e) :
    shiftToTargetExponent .binary64 (2 ^ 53) e .exact = (⟨2 ^ 52, false, false⟩, e + 1) := by
  have hshift : (max (((2 ^ 53 : ℕ).log2 : ℤ) - 52) (-1074 - e)).toNat = 1 := by
    rw [Nat.log2_two_pow]
    omega
  rw [shiftToTargetExponent_eq, hshift]
  rfl

theorem mantissa_ofMantissaAndAccuracy (m : ℕ) (accuracy : Accuracy) :
    (ExtendedMantissa.ofMantissaAndAccuracy m accuracy).mantissa = m := by
  unfold ExtendedMantissa.ofMantissaAndAccuracy
  split <;> rfl

/-- What has 53 bits or more is rounded to a number that it rounds to. The exponent grows by the bits that
are dropped, and by one more if the leading bit is carried. -/
theorem roundWithAccuracy_rounds {m : ℕ} {e : ℤ} {accuracy : Accuracy}
    (h : Holds (ExtendedMantissa.ofMantissaAndAccuracy m accuracy) t) (hm : 2 ^ 52 ≤ m) (he : -1074 ≤ e) :
    ∃ m' e' pos, roundWithAccuracy .binary64 .positive m e accuracy = .finite .positive m' e' pos ∧
      2 ^ 52 ≤ m' ∧ m' < 2 ^ 53 ∧ e + (m.log2 - 52) ≤ e' ∧ e' ≤ e + (m.log2 - 51) ∧
      (⟨false, m', e'⟩ : Decimal.Dyadic).Rounds (t * 2 ^ e) := by
  have hlog : 52 ≤ m.log2 := (Nat.le_log2 (by omega)).mpr hm
  obtain ⟨k, hk⟩ : ∃ k : ℕ, m.log2 = 52 + k := Nat.exists_eq_add_of_le hlog
  have hshift : (max ((m.log2 : ℤ) - 52) (-1074 - e)).toNat = k := by omega
  have hcut := h.shiftRight k
  have hcutm : (ExtendedMantissa.ofMantissaAndAccuracy m accuracy >>> k).mantissa = m / 2 ^ k := by
    rw [mantissa_shiftRight, mantissa_ofMantissaAndAccuracy]
  obtain ⟨hlead, hlast⟩ := leading_bits (by omega) hk
  have hrounds := hcut.rounds (by omega) (e + k)
  have hvalue : t / 2 ^ k * 2 ^ (e + k) = t * 2 ^ e := by
    rw [zpow_add₀ two_ne_zero, zpow_natCast]
    field_simp
  have hbounds := roundedMantissa_bounds (ExtendedMantissa.ofMantissaAndAccuracy m accuracy >>> k)
  rw [hvalue] at hrounds
  rw [hcutm] at hbounds
  rw [roundWithAccuracy, shiftToTargetExponent_eq, hshift]
  dsimp only
  generalize (ExtendedMantissa.ofMantissaAndAccuracy m accuracy >>> k).roundedMantissa = r at *
  rcases Nat.lt_or_ge r (2 ^ 53) with hlt | hcarry
  · rw [shiftToTargetExponent_of_lt (by omega) hlt (by omega)]
    have hne : r ≠ 0 := by omega
    exact ⟨r, e + k, by omega, dif_neg hne, by omega, hlt, by omega, by omega, hrounds⟩
  · obtain rfl : r = 2 ^ 53 := by omega
    rw [shiftToTargetExponent_of_carry (by omega)]
    have hmin : Decimal.Dyadic.minExponent = -1074 := rfl
    exact ⟨2 ^ 52, e + k + 1, by omega, rfl, by omega, by omega, by omega, by omega,
      rounds_carry (by omega) hrounds⟩

/-! ## Conversion and division -/

theorem log2_shiftLeft {n : ℕ} (hn : n ≠ 0) (k : ℕ) : (n <<< k).log2 = n.log2 + k := by
  rw [Nat.shiftLeft_eq]
  have hpos := Nat.mul_pos (Nat.pos_of_ne_zero hn) (Nat.two_pow_pos k)
  refine (Nat.log2_eq_iff hpos.ne').mpr ⟨?_, ?_⟩
  · rw [Nat.pow_add]
    exact Nat.mul_le_mul_right _ (Nat.log2_self_le hn)
  · rw [Nat.add_right_comm, Nat.pow_add]
    exact Nat.mul_lt_mul_of_pos_right Nat.lt_log2_self (Nat.two_pow_pos k)

theorem ofNat_round {n : ℕ} (hn : n ≠ 0) : UnpackedFloat.ofNat .binary64 n =
    roundWithAccuracy .binary64 .positive (n <<< (52 - n.log2)) (0 - (52 - n.log2 : ℕ)) .exact := by
  have hpos : compare (n : ℤ) 0 = .gt := by
    rw [compare_gt_iff_gt]
    omega
  have htarget : (0 - Format.binary64.targetExponent (totalExponent n 0)).toNat = 52 - n.log2 := by
    simp only [Format.targetExponent, totalExponent, Format.mantissaBits, Format.minExponent]
    omega
  simp only [UnpackedFloat.ofNat, UnpackedFloat.ofInt, UnpackedFloat.normalize, hpos,
    Float.Model.UnpackedFloat.round, decreaseExponent, htarget, Int.toNat_natCast]

theorem ofNat_rounds {n : ℕ} (hn : n ≠ 0) : ∃ m e pos,
    UnpackedFloat.ofNat .binary64 n = .finite .positive m e pos ∧ 2 ^ 52 ≤ m ∧ m < 2 ^ 53 ∧
    (n.log2 - 52 : ℤ) ≤ e ∧ e ≤ n.log2 - 51 ∧ (⟨false, m, e⟩ : Decimal.Dyadic).Rounds n := by
  have hlog := log2_shiftLeft hn (52 - n.log2)
  have hlead : 2 ^ 52 ≤ n <<< (52 - n.log2) := by
    have hne : n <<< (52 - n.log2) ≠ 0 := by simp [hn]
    refine le_trans (Nat.pow_le_pow_right (by decide) ?_) (Nat.log2_self_le hne)
    omega
  obtain ⟨m, e, pos, heq, hm, hm', hle, hge, hrounds⟩ :=
    roundWithAccuracy_rounds (holds_exact (n <<< (52 - n.log2))) hlead
      (show -1074 ≤ (0 - (52 - n.log2 : ℕ) : ℤ) by omega)
  have hvalue : ((n <<< (52 - n.log2) : ℕ) : ℚ) * 2 ^ (0 - (52 - n.log2 : ℕ) : ℤ) = n := by
    rw [Nat.shiftLeft_eq, zero_sub, zpow_neg, zpow_natCast]
    push_cast
    field_simp
  rw [hvalue] at hrounds
  exact ⟨m, e, pos, by rw [ofNat_round hn, heq], hm, hm', by omega, by omega, hrounds⟩

theorem div_rounds {m₁ m₂ : ℕ} {e₁ e₂ : ℤ} (pos₁ : 0 < m₁) (pos₂ : 0 < m₂) (hm₁ : 2 ^ 52 ≤ m₁)
    (hm₁' : m₁ < 2 ^ 53) (hm₂ : 2 ^ 52 ≤ m₂) (hm₂' : m₂ < 2 ^ 53) (he : -1021 ≤ e₁ - e₂) :
    ∃ m e pos,
    UnpackedFloat.div .binary64 (.finite .positive m₁ e₁ pos₁) (.finite .positive m₂ e₂ pos₂) =
      .finite .positive m e pos ∧ 2 ^ 52 ≤ m ∧ m < 2 ^ 53 ∧ e₁ - e₂ - 53 ≤ e ∧ e ≤ e₁ - e₂ - 51 ∧
      (⟨false, m, e⟩ : Decimal.Dyadic).Rounds (m₁ * 2 ^ e₁ / (m₂ * 2 ^ e₂)) := by
  have hlog₁ := log2_of_leading hm₁ hm₁'
  have hlog₂ := log2_of_leading hm₂ hm₂'
  have htarget : min (e₁ - e₂) (Format.binary64.targetExponent (totalExponent m₁ e₁ - totalExponent m₂ e₂)) =
      e₁ - e₂ - 53 := by
    simp only [Format.targetExponent, totalExponent, Format.mantissaBits, Format.minExponent, hlog₁, hlog₂]
    omega
  obtain ⟨num, hnum⟩ : ∃ num, num = m₁ * 2 ^ 53 := ⟨_, rfl⟩
  have hcore : divCore .binary64 m₁ e₁ m₂ e₂ =
      (num / m₂, e₁ - e₂ - 53, accuracyOfFraction (num % m₂) m₂) := by
    have hshift : (e₁ - e₂ - (e₁ - e₂ - 53)).toNat = 53 := by omega
    simp only [divCore, htarget, hshift, Nat.shiftLeft_eq, ← hnum]
  have hlead : 2 ^ 52 ≤ num / m₂ := by
    rw [Nat.le_div_iff_mul_le pos₂]
    omega
  have hlast : num / m₂ < 2 ^ 54 := by
    rw [Nat.div_lt_iff_lt_mul pos₂]
    omega
  have hlog : (num / m₂).log2 = 52 ∨ (num / m₂).log2 = 53 := by
    have hge : 52 ≤ (num / m₂).log2 := (Nat.le_log2 (by omega)).mpr hlead
    have hle : (num / m₂).log2 < 54 := (Nat.log2_lt (by omega)).mpr hlast
    omega
  obtain ⟨m, e, pos, heq, hm, hm', hle, hge, hrounds⟩ :=
    roundWithAccuracy_rounds (holds_fraction num pos₂) hlead (show -1074 ≤ e₁ - e₂ - 53 by omega)
  have hvalue : (num : ℚ) / m₂ * 2 ^ (e₁ - e₂ - 53) = m₁ * 2 ^ e₁ / (m₂ * 2 ^ e₂) := by
    have hne : (m₂ : ℚ) ≠ 0 := by exact_mod_cast pos₂.ne'
    rw [hnum, zpow_sub₀ two_ne_zero, zpow_sub₀ two_ne_zero]
    push_cast
    field_simp
  rw [hvalue] at hrounds
  refine ⟨m, e, pos, ?_, hm, hm', by omega, by omega, hrounds⟩
  rw [← heq]
  change (match divCore .binary64 m₁ e₁ m₂ e₂ with
    | (m, e, accuracy) => roundWithAccuracy .binary64 .positive m e accuracy) = _
  rw [hcore]

end Rounding

end WriteBehind
