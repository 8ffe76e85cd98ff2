import WriteBehind.Proofs.Decimal.Shortest
import WriteBehind.Proofs.Json.Scan
import WriteBehind.Proofs.Word

/-!
# Numbers below one

The reader multiplies or divides the digits of a number by a power of ten. It refuses a number only for being
too great, so it takes every numeral whose power of ten is negative. The numeral of a number below one has such
a power, or the point right behind a zero.
-/

namespace WriteBehind

namespace Json

open Decimal (Digits)

variable {n : Numeral}

theorem length_absorb_le (significand : ℕ) (cs : List Char) : (absorb significand cs).2.length ≤ cs.length := by
  induction cs generalizing significand with
  | nil => exact le_rfl
  | cons c cs ih =>
    unfold absorb
    dsimp only
    split
    · exact (ih _).trans (Nat.le_succ _)
    · exact le_rfl

theorem absorb_digit {c : Char} (h : c.isDigit = true) (cs : List Char) :
    absorb 0 (c :: cs) = absorb (c.toNat - '0'.toNat) cs := by
  have hdigit : c.toNat - '0'.toNat < 10 := by
    simp only [Char.isDigit, Bool.and_eq_true, decide_eq_true_eq, UInt32.le_iff_toNat_le] at h
    have := h.2
    change c.toNat ≤ 57 at this
    change c.toNat - 48 < 10
    omega
  rw [absorb, Nat.zero_mul, Nat.zero_add, if_pos (hdigit.trans (by decide))]

theorem scaleByTen_isSome (fuel : ℕ) (x : Float) {exponent : ℤ} (h : exponent < 0) :
    (scaleByTen fuel x exponent).isSome := by
  induction fuel generalizing x exponent with
  | zero =>
    unfold scaleByTen
    dsimp only
    split
    · rw [if_neg (by omega)]
      rfl
    · split
      · rfl
      · rw [if_neg (by omega)]
        rfl
  | succ fuel ih =>
    unfold scaleByTen
    dsimp only
    split
    · rw [if_neg (by omega)]
      rfl
    · split
      · rfl
      · rw [if_neg (by omega)]
        exact ih _ (by omega)

namespace Numeral

/-- A numeral below one: zero in front of the point, or one digit and a negative power of ten. -/
structure IsFraction (n : Numeral) : Prop where
  whole : ∃ c, n.whole = [c] ∧ c.isDigit = true
  small : (n.whole = ['0'] ∧ n.exponent = none ∧ n.fraction ≠ [] ∧ ∀ c ∈ n.fraction, c.isDigit = true) ∨
    ∃ digits, n.exponent = some (true, digits) ∧ 0 < Nat.ofDigitChars 10 digits 0

theorem IsFraction.real?_isSome (h : n.IsFraction) : n.real?.isSome := by
  obtain ⟨c, hwhole, hdigit⟩ := h.whole
  have habsorb : absorb 0 [c] = (c.toNat - '0'.toNat, []) := absorb_digit hdigit []
  unfold real?
  rw [hwhole, habsorb]
  dsimp only
  rw [Option.isSome_map]
  apply scaleByTen_isSome
  rcases h.small with ⟨hzero, hexponent, hsome, hdigits⟩ | ⟨digits, hexponent, hpos⟩
  · obtain ⟨d, ds, hfraction⟩ := List.exists_cons_of_ne_nil hsome
    obtain rfl : c = '0' := (List.cons.inj (hwhole.symm.trans hzero)).1
    have hlength := length_absorb_le (d.toNat - '0'.toNat) ds
    have hd := absorb_digit (hdigits d (by rw [hfraction]; exact List.mem_cons_self)) ds
    rw [hexponent, hfraction]
    change (0 : ℤ) + 0 - ((ds.length + 1 - (absorb 0 (d :: ds)).2.length : ℕ) : ℤ) < 0
    rw [hd]
    omega
  · rw [hexponent]
    change -(Nat.ofDigitChars 10 digits 0 : ℤ) + 0 - _ < 0
    omega

theorem IsFraction.value? (h : n.IsFraction) : ∃ y, n.value? = some (.real y) := by
  obtain ⟨y, hy⟩ := Option.isSome_iff_exists.mp h.real?_isSome
  have hwhole : n.isWhole = false := by
    unfold isWhole
    rcases h.small with ⟨-, -, hsome, -⟩ | ⟨digits, hexponent, -⟩
    · simp [hsome]
    · simp [hexponent]
  exact ⟨y, by simp [Numeral.value?, hwhole, hy]⟩

theorem isFraction_ofDigits (negative : Bool) {d : Digits} (hzero : d.digits = 0 → d.scale = 0)
    (hsmall : d.digits ≠ 0 → ((Nat.toDigits 10 d.digits).length : ℤ) + d.scale ≤ 0) :
    (ofDigits negative d).IsFraction := by
  have hlength := Nat.length_toDigits_pos (b := 10) (n := d.digits)
  unfold ofDigits
  dsimp only
  by_cases h : d.digits = 0
  · rw [if_pos (.inl h), if_pos (hzero h).ge, h, hzero h]
    exact ⟨⟨'0', by simp [Nat.toDigits_of_lt_base], rfl⟩, .inl ⟨by simp [Nat.toDigits_of_lt_base], rfl,
      by simp, by simp⟩⟩
  have hpoint := hsmall h
  split
  · rw [if_neg (by omega), if_neg (by omega)]
    have hdigits := isDigit_of_mem (n := d.digits)
    refine ⟨⟨'0', rfl, rfl⟩, .inl ⟨rfl, rfl, by simp [Nat.toDigits_ne_nil],
      List.forall_mem_append.mpr ⟨fun c hc => ?_, hdigits⟩⟩⟩
    rw [List.eq_of_mem_replicate hc]
    rfl
  · obtain ⟨c, cs, hc, hdigit⟩ := toDigits_starts d.digits
    refine ⟨⟨c, by rw [hc]; rfl, hdigit⟩, .inr ⟨_, by rw [decide_eq_true (by omega)], ?_⟩⟩
    rw [Nat.ofDigitChars_ten_toDigits]
    omega

end Numeral

end Json

namespace Decimal.Dyadic

variable {x : Dyadic}

theorem pow_length_le {n : ℕ} (hn : n ≠ 0) : 10 ^ ((Nat.toDigits 10 n).length - 1) ≤ n := by
  rcases Nat.eq_zero_or_pos ((Nat.toDigits 10 n).length - 1) with hone | hmore
  · rw [hone]
    exact Nat.one_le_iff_ne_zero.mpr hn
  · have := (Nat.length_toDigits_le_iff (b := 10) (n := n) (by decide) hmore).not
    omega

theorem shortest_below_one (hx : x.Canonical) (hhigh : x.exponent ≤ 971) (hone : x.value < 1)
    (hne : x.shortest.digits ≠ 0) : ((Nat.toDigits 10 x.shortest.digits).length : ℤ) + x.shortest.scale ≤ 0 := by
  have hunit : (⟨false, 2 ^ 52, -52⟩ : Dyadic).value = 1 := by norm_num [value]
  have hcanonical : (⟨false, 2 ^ 52, -52⟩ : Dyadic).Canonical :=
    ⟨by norm_num, by decide, .inl le_rfl⟩
  have hrounds := rounds_shortest hx.mantissa_lt hx.exponent_ge hhigh
  have hlt := lt_of_rounds_of_lt hx hcanonical (hone.trans_eq hunit.symm) hrounds (rounds_value _)
  rw [hunit, Digits.value] at hlt
  have hlength := Nat.length_toDigits_pos (b := 10) (n := x.shortest.digits)
  have hpow : (10 : ℚ) ^ ((Nat.toDigits 10 x.shortest.digits).length - 1) ≤ x.shortest.digits := by
    exact_mod_cast pow_length_le hne
  have hscale : (0 : ℚ) < 10 ^ x.shortest.scale := zpow_pos (by norm_num) _
  have hexponent : (10 : ℚ) ^ ((((Nat.toDigits 10 x.shortest.digits).length - 1 : ℕ) : ℤ) +
      x.shortest.scale) < 10 ^ (0 : ℤ) := by
    rw [zpow_add₀ (by norm_num), zpow_natCast, zpow_zero]
    exact (mul_le_mul_of_nonneg_right hpow hscale.le).trans_lt hlt
  have := (zpow_lt_zpow_iff_right₀ (by norm_num)).mp hexponent
  omega

end Decimal.Dyadic

/-- A number from zero up to one reads back as a binary64 number from what is written for it. -/
theorem Json.Value.ofTree?_fraction {x : Float} (h0 : 0 ≤ x) (h1 : x < 1) (budget : ℕ) :
    ∃ y, ofTree? budget (number (.real x)).tree = some (number (.real y)) := by
  obtain ⟨d, hd, hone⟩ := Rounding.ofFloat?_of_lt_one h0 h1
  obtain ⟨hcanonical, hhigh⟩ := Decimal.Dyadic.canonical_of_ofFloat? hd
  obtain ⟨y, hy⟩ := (Json.Numeral.isFraction_ofDigits d.negative Decimal.Dyadic.scale_shortest_eq_zero
    (Decimal.Dyadic.shortest_below_one hcanonical hhigh hone)).value?
  exact ⟨y, by rw [tree, hd, ofTree?, hy]; rfl⟩

end WriteBehind
