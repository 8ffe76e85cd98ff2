import Mathlib
import WriteBehind.Decimal.Dyadic

/-!
# What rounds to a binary64 number

To the nearest, and of two at the same distance to the one with the even mantissa: what rounds to a number
is an interval around it, up to the middle between it and its neighbours. The intervals of two numbers have
no point in common, so they lie in the order of the numbers.
-/

namespace WriteBehind.Decimal.Dyadic

def value (x : Dyadic) : ℚ := x.mantissa * 2 ^ x.exponent

/-- The form in which each number is written once. -/
structure Canonical (x : Dyadic) : Prop where
  mantissa_lt : x.mantissa < 2 ^ 53
  exponent_ge : minExponent ≤ x.exponent
  leading : 2 ^ 52 ≤ x.mantissa ∨ x.exponent = minExponent

def upper (x : Dyadic) : ℚ := (x.mantissa + 1 / 2) * 2 ^ x.exponent

/-- Half the way to the number below. Below a power of two the numbers are twice as dense. -/
def lower (x : Dyadic) : ℚ :=
  (x.mantissa - if x.mantissa = 2 ^ 52 ∧ minExponent < x.exponent then 1 / 4 else 1 / 2) * 2 ^ x.exponent

def Rounds (x : Dyadic) (q : ℚ) : Prop :=
  if x.mantissa % 2 = 0 then x.lower ≤ q ∧ q ≤ x.upper else x.lower < q ∧ q < x.upper

variable {x y : Dyadic} {q r : ℚ} {f g : Float}

theorem unit_pos (x : Dyadic) : (0 : ℚ) < 2 ^ x.exponent := zpow_pos two_pos _

theorem Rounds.le_upper (h : x.Rounds q) : q ≤ x.upper := by
  unfold Rounds at h
  split at h
  · exact h.2
  · exact h.2.le

theorem Rounds.lower_le (h : x.Rounds q) : x.lower ≤ q := by
  unfold Rounds at h
  split at h
  · exact h.1
  · exact h.1.le

theorem Rounds.lt_upper (h : x.Rounds q) (hodd : x.mantissa % 2 ≠ 0) : q < x.upper := by
  rw [Rounds, if_neg hodd] at h
  exact h.2

theorem Rounds.lower_lt (h : x.Rounds q) (hodd : x.mantissa % 2 ≠ 0) : x.lower < q := by
  rw [Rounds, if_neg hodd] at h
  exact h.1

theorem lower_ge (x : Dyadic) : (x.mantissa - 1 / 2) * 2 ^ x.exponent ≤ x.lower := by
  refine mul_le_mul_of_nonneg_right ?_ x.unit_pos.le
  split <;> linarith

theorem value_lt_upper (x : Dyadic) : x.value < x.upper :=
  mul_lt_mul_of_pos_right (by linarith) x.unit_pos

theorem lower_lt_value (x : Dyadic) : x.lower < x.value := by
  refine mul_lt_mul_of_pos_right ?_ x.unit_pos
  split <;> linarith

theorem rounds_value (x : Dyadic) : x.Rounds x.value := by
  have hl := x.lower_lt_value
  have hu := x.value_lt_upper
  unfold Rounds
  split
  · exact ⟨hl.le, hu.le⟩
  · exact ⟨hl, hu⟩

theorem Rounds.abs_sub_le (h : x.Rounds q) : |q - x.value| ≤ 2 ^ x.exponent / 2 := by
  have hl := (lower_ge x).trans h.lower_le
  have hu := h.le_upper
  rw [abs_le]
  unfold value upper at *
  constructor <;> linarith

theorem Rounds.abs_sub_le_value (h : x.Rounds q) (hm : 2 ^ 52 ≤ x.mantissa) :
    |q - x.value| ≤ x.value / 2 ^ 53 := by
  refine h.abs_sub_le.trans ?_
  have hlead : 2 ^ 52 * 2 ^ x.exponent ≤ x.value :=
    mul_le_mul_of_nonneg_right (by exact_mod_cast hm) x.unit_pos.le
  linarith

/-- The middle between two neighbours rounds to one of them only, since one of their mantissas is odd. -/
theorem lt_of_rounds_of_mantissa_lt (he : x.exponent = y.exponent) (hm : x.mantissa < y.mantissa)
    (hx : x.Rounds q) (hy : y.Rounds r) : q < r := by
  have hupper : ∀ n : ℕ, x.mantissa + n ≤ y.mantissa → x.upper + (n - 1) * 2 ^ y.exponent ≤ y.lower := by
    intro n hn
    have hcast : (x.mantissa : ℚ) + n ≤ y.mantissa := by exact_mod_cast hn
    refine le_trans ?_ y.lower_ge
    rw [upper, he, ← add_mul]
    exact mul_le_mul_of_nonneg_right (by linarith) y.unit_pos.le
  have hone := hupper 1 hm
  by_cases hxodd : x.mantissa % 2 = 0
  · by_cases hyodd : y.mantissa % 2 = 0
    · have htwo := hupper 2 (by omega)
      have := y.unit_pos
      have := hx.le_upper
      have := hy.lower_le
      push_cast at htwo
      linarith
    · have := hx.le_upper
      have := hy.lower_lt hyodd
      push_cast at hone
      linarith
  · have := hx.lt_upper hxodd
    have := hy.lower_le
    push_cast at hone
    linarith

theorem lt_of_rounds_of_exponent_lt (hcx : x.Canonical) (hcy : y.Canonical) (he : x.exponent < y.exponent)
    (hx : x.Rounds q) (hy : y.Rounds r) : q < r := by
  have hlead : 2 ^ 52 ≤ y.mantissa := hcy.leading.resolve_right (by have := hcx.exponent_ge; omega)
  have hstep : (2 : ℚ) ^ (x.exponent + 1) ≤ 2 ^ y.exponent := zpow_le_zpow_right₀ one_le_two (by omega)
  rw [zpow_add_one₀ two_ne_zero] at hstep
  have hpos := x.unit_pos
  have hlower : (2 ^ 53 - 1 / 2) * 2 ^ x.exponent ≤ y.lower := by
    have hquarter : (2 ^ 52 - 1 / 4 : ℚ) * 2 ^ y.exponent ≤ y.lower := by
      refine mul_le_mul_of_nonneg_right ?_ y.unit_pos.le
      have hm : (2 ^ 52 : ℚ) ≤ y.mantissa := by exact_mod_cast hlead
      rcases hlead.eq_or_lt with heq | hlt
      · rw [if_pos ⟨heq.symm, by have := hcx.exponent_ge; omega⟩]
        linarith
      · have hm' : (2 ^ 52 + 1 : ℚ) ≤ y.mantissa := by exact_mod_cast hlt
        split <;> linarith
    refine le_trans ?_ hquarter
    calc (2 ^ 53 - 1 / 2 : ℚ) * 2 ^ x.exponent = (2 ^ 52 - 1 / 4) * (2 ^ x.exponent * 2) := by ring
      _ ≤ (2 ^ 52 - 1 / 4) * 2 ^ y.exponent := mul_le_mul_of_nonneg_left hstep (by norm_num)
  have hle := hy.lower_le
  -- Only the greatest mantissa reaches the middle, and it is odd.
  rcases Nat.lt_or_eq_of_le (Nat.le_sub_one_of_lt hcx.mantissa_lt) with hlt | hlast
  · have hm : (x.mantissa : ℚ) + 2 ≤ 2 ^ 53 := by
      have : x.mantissa + 2 ≤ 2 ^ 53 := by omega
      exact_mod_cast this
    have hupper : x.upper < (2 ^ 53 - 1 / 2) * 2 ^ x.exponent :=
      mul_lt_mul_of_pos_right (by linarith) hpos
    have := hx.le_upper
    linarith
  · have hupper : x.upper = (2 ^ 53 - 1 / 2) * 2 ^ x.exponent := by
      rw [upper, hlast]
      norm_num
    have := hx.lt_upper (by omega)
    linarith

theorem value_lt_of_exponent_lt (hcx : x.Canonical) (hcy : y.Canonical) (he : x.exponent < y.exponent) :
    x.value < y.value :=
  lt_of_rounds_of_exponent_lt hcx hcy he x.rounds_value y.rounds_value

theorem lt_of_rounds_of_lt (hcx : x.Canonical) (hcy : y.Canonical) (h : x.value < y.value) (hx : x.Rounds q)
    (hy : y.Rounds r) : q < r := by
  rcases lt_trichotomy x.exponent y.exponent with he | he | he
  · exact lt_of_rounds_of_exponent_lt hcx hcy he hx hy
  · refine lt_of_rounds_of_mantissa_lt he ?_ hx hy
    rw [value, value, he] at h
    exact_mod_cast lt_of_mul_lt_mul_right h y.unit_pos.le
  · exact absurd h (value_lt_of_exponent_lt hcy hcx he).not_gt

theorem value_le_of_rounds (hcx : x.Canonical) (hcy : y.Canonical) (hx : x.Rounds q) (hy : y.Rounds r)
    (h : q ≤ r) : x.value ≤ y.value := by
  by_contra hlt
  exact absurd (lt_of_rounds_of_lt hcy hcx (not_le.mp hlt) hy hx) (not_lt.mpr h)

theorem value_eq_of_rounds (hcx : x.Canonical) (hcy : y.Canonical) (hx : x.Rounds q) (hy : y.Rounds q) :
    x.value = y.value :=
  le_antisymm (value_le_of_rounds hcx hcy hx hy le_rfl) (value_le_of_rounds hcy hcx hy hx le_rfl)

theorem le_of_value_le (hcx : x.Canonical) (hcy : y.Canonical) (h : x.value ≤ y.value) :
    x.exponent < y.exponent ∨ (x.exponent = y.exponent ∧ x.mantissa ≤ y.mantissa) := by
  rcases lt_trichotomy x.exponent y.exponent with he | he | he
  · exact .inl he
  · rw [value, value, he] at h
    exact .inr ⟨he, by exact_mod_cast le_of_mul_le_mul_right h y.unit_pos⟩
  · exact absurd h (value_lt_of_exponent_lt hcy hcx he).not_ge

theorem eq_of_value_eq (hcx : x.Canonical) (hcy : y.Canonical) (hsign : x.negative = y.negative)
    (h : x.value = y.value) : x = y := by
  have he : x.exponent = y.exponent := by
    have hle := le_of_value_le hcx hcy h.le
    have hge := le_of_value_le hcy hcx h.ge
    omega
  rw [value, value, he] at h
  have hm : x.mantissa = y.mantissa := by exact_mod_cast mul_right_cancel₀ y.unit_pos.ne' h
  obtain ⟨nx, mx, ex⟩ := x
  obtain ⟨ny, my, ey⟩ := y
  simp only at hsign he hm
  rw [hsign, he, hm]

/-! ## Binary64 numbers in this form -/

theorem ofFloat?_eq_some : ofFloat? f = some x ↔
    f.toBits.toNat / 2 ^ 52 % 2 ^ 11 ≠ 2 ^ 11 - 1 ∧ x.negative = decide (2 ^ 63 ≤ f.toBits.toNat) ∧
    x.mantissa = (if f.toBits.toNat / 2 ^ 52 % 2 ^ 11 = 0 then f.toBits.toNat % 2 ^ 52
      else f.toBits.toNat % 2 ^ 52 + 2 ^ 52) ∧
    x.exponent = (max (f.toBits.toNat / 2 ^ 52 % 2 ^ 11) 1 : ℕ) - 1075 := by
  obtain ⟨n, m, e⟩ := x
  change (if f.toBits.toNat / 2 ^ 52 % 2 ^ 11 = 2 ^ 11 - 1 then none else some (⟨_, _, _⟩ : Dyadic)) = _ ↔ _
  have hmin : ∀ k : ℕ, ((max k 1 : ℕ) : ℤ) + (minExponent - 1) = (max k 1 : ℕ) - 1075 := fun _ => by
    unfold minExponent
    omega
  split
  · rename_i hinf
    exact ⟨fun h => (Option.some_ne_none _ h.symm).elim, fun h => absurd hinf h.1⟩
  · rename_i hfin
    rw [Option.some_inj, mk.injEq, hmin]
    exact ⟨fun ⟨hn, hm, he⟩ => ⟨hfin, hn.symm, hm.symm, he.symm⟩,
      fun ⟨_, hn, hm, he⟩ => ⟨hn.symm, hm.symm, he.symm⟩⟩

theorem canonical_of_ofFloat? (h : ofFloat? f = some x) : x.Canonical ∧ x.exponent ≤ 971 := by
  obtain ⟨hfin, -, hm, he⟩ := ofFloat?_eq_some.mp h
  have hmin : minExponent = -1074 := rfl
  refine ⟨⟨?_, ?_, ?_⟩, ?_⟩
  · rw [hm]
    split <;> omega
  · omega
  · rw [hm]
    split <;> omega
  · omega

theorem ofFloat?_inj (hf : ofFloat? f = some x) (hg : ofFloat? g = some x) : f = g := by
  obtain ⟨hfin, hfs, hfm, hfe⟩ := ofFloat?_eq_some.mp hf
  obtain ⟨hgin, hgs, hgm, hge⟩ := ofFloat?_eq_some.mp hg
  have hsign := decide_eq_decide.mp (hfs.symm.trans hgs)
  have hflt := f.toBits.toNat_lt
  have hglt := g.toBits.toNat_lt
  rw [← Float.toBits_inj, ← UInt64.toNat_inj]
  split at hfm <;> split at hgm <;> omega

end WriteBehind.Decimal.Dyadic
