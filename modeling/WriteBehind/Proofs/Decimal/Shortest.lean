import WriteBehind.Decimal.Shortest
import WriteBehind.Proofs.Decimal.Rounding

/-!
# Shortest decimals round back

A grid whose steps are smaller than half a place of the mantissa has a point that rounds to the number, and
the search goes on to such a grid. Dropping zeros at the end changes the digits and not what they say.
-/

namespace WriteBehind.Decimal

def Digits.value (d : Digits) : ℚ := d.digits * 10 ^ d.scale

theorem Digits.value_strip (fuel : ℕ) (d : Digits) : (d.strip fuel).value = d.value := by
  induction fuel generalizing d with
  | zero => rfl
  | succ fuel ih =>
    unfold strip
    split
    · rename_i h
      rw [ih]
      have hten : d.digits = d.digits / 10 * 10 := (Nat.div_mul_cancel (Nat.dvd_of_mod_eq_zero h.2)).symm
      have hcast : (d.digits : ℚ) = (d.digits / 10 : ℕ) * 10 := by exact_mod_cast hten
      simp only [value]
      rw [zpow_add_one₀ (by norm_num), hcast]
      ring
    · rfl

namespace Dyadic

variable {x : Dyadic} {scale : Int}

/-! ## The points of a grid -/

theorem cast_twoPow (e : Int) : ((twoPow e : ℕ) : ℚ) = 2 ^ e * twoPow (-e) := by
  rcases le_total 0 e with h | h
  · obtain ⟨n, rfl⟩ := Int.eq_ofNat_of_zero_le h
    simp [twoPow]
  · obtain ⟨n, rfl⟩ := Int.exists_eq_neg_ofNat h
    simp [twoPow]

theorem cast_tenPow (e : Int) : ((tenPow e : ℕ) : ℚ) = 10 ^ e * tenPow (-e) := by
  rcases le_total 0 e with h | h
  · obtain ⟨n, rfl⟩ := Int.eq_ofNat_of_zero_le h
    simp [tenPow]
  · obtain ⟨n, rfl⟩ := Int.exists_eq_neg_ofNat h
    simp [tenPow]

/-- The unit that makes a step of the grid and a quarter of the last bit whole. -/
def gridScale (x : Dyadic) (scale : Int) : ℕ := tenPow (-scale) * twoPow (2 - x.exponent)

theorem gridScale_pos (x : Dyadic) (scale : Int) : 0 < x.gridScale scale :=
  Nat.mul_pos (Nat.pow_pos (by decide)) (Nat.two_pow_pos _)

theorem cast_gridUnit (x : Dyadic) (scale : Int) :
    (x.gridUnit scale : ℚ) = 10 ^ scale * x.gridScale scale := by
  rw [gridUnit, gridScale, Nat.cast_mul, Nat.cast_mul, cast_tenPow]
  ring

theorem cast_quarter (x : Dyadic) (scale : Int) :
    (x.quarter scale : ℚ) = 2 ^ x.exponent / 4 * x.gridScale scale := by
  have hfour : (2 : ℚ) ^ (x.exponent - 2) = 2 ^ x.exponent / 4 := by
    rw [zpow_sub₀ two_ne_zero]
    norm_num
  rw [quarter, gridScale, Nat.cast_mul, Nat.cast_mul, cast_twoPow, neg_sub, hfour]
  ring

theorem quarters_le_iff (k c : ℕ) : k * x.quarter scale ≤ c * x.gridUnit scale ↔
    (k : ℚ) / 4 * 2 ^ x.exponent ≤ c * 10 ^ scale := by
  have hpos : (0 : ℚ) < x.gridScale scale := by exact_mod_cast x.gridScale_pos scale
  rw [← Nat.cast_le (α := ℚ), Nat.cast_mul, Nat.cast_mul, cast_quarter, cast_gridUnit, ← mul_assoc,
    ← mul_assoc, mul_le_mul_iff_left₀ hpos]
  ring_nf

theorem le_quarters_iff (k c : ℕ) : c * x.gridUnit scale ≤ k * x.quarter scale ↔
    (c : ℚ) * 10 ^ scale ≤ k / 4 * 2 ^ x.exponent := by
  have hpos : (0 : ℚ) < x.gridScale scale := by exact_mod_cast x.gridScale_pos scale
  rw [← Nat.cast_le (α := ℚ), Nat.cast_mul, Nat.cast_mul, cast_quarter, cast_gridUnit, ← mul_assoc,
    ← mul_assoc, mul_le_mul_iff_left₀ hpos]
  ring_nf

theorem quarters_lt_iff (k c : ℕ) : k * x.quarter scale < c * x.gridUnit scale ↔
    (k : ℚ) / 4 * 2 ^ x.exponent < c * 10 ^ scale := by
  rw [← not_le, le_quarters_iff, not_le]

theorem lt_quarters_iff (k c : ℕ) : c * x.gridUnit scale < k * x.quarter scale ↔
    (c : ℚ) * 10 ^ scale < k / 4 * 2 ^ x.exponent := by
  rw [← not_le, quarters_le_iff, not_le]

theorem upper_quarters (x : Dyadic) : x.upper = (4 * x.mantissa + 2 : ℕ) / 4 * 2 ^ x.exponent := by
  rw [upper]
  push_cast
  ring

theorem lower_quarters (hm : 0 < x.mantissa) : x.lower =
    ((if x.mantissa = Nat.pow 2 52 ∧ minExponent < x.exponent then 4 * x.mantissa - 1
      else 4 * x.mantissa - 2 : ℕ) : ℚ) / 4 * 2 ^ x.exponent := by
  have htwo : Nat.pow 2 52 = 2 ^ 52 := rfl
  rw [lower, htwo]
  split
  · rw [Nat.cast_sub (by omega)]
    push_cast
    ring
  · rw [Nat.cast_sub (by omega)]
    push_cast
    ring

theorem roundsHere_iff (hm : 0 < x.mantissa) (c : ℕ) :
    x.roundsHere scale c = true ↔ x.Rounds (c * 10 ^ scale) := by
  rw [roundsHere, Rounds, lower_quarters hm, upper_quarters]
  split
  · rw [decide_eq_true_iff, quarters_le_iff, le_quarters_iff]
  · rw [decide_eq_true_iff, quarters_lt_iff, lt_quarters_iff]

theorem rounds_of_gridPoint? {c : ℕ} (hm : 0 < x.mantissa) (h : x.gridPoint? scale = some c) :
    x.Rounds (c * 10 ^ scale) := by
  rw [← roundsHere_iff hm]
  unfold gridPoint? at h
  dsimp only at h
  split at h
  · rename_i hbelow _
    cases h
    exact hbelow
  · rename_i _ habove
    cases h
    exact habove
  · rename_i hbelow habove
    cases h
    split
    · exact hbelow
    · exact habove
  · cases h

/-- If the steps of a grid are smaller than half a place of the mantissa, the point above the number
rounds to it. -/
theorem gridPoint?_isSome (hm : 0 < x.mantissa) (hfine : (10 : ℚ) ^ scale < 2 ^ x.exponent / 2) :
    (x.gridPoint? scale).isSome := by
  have hstep : x.gridUnit scale < 2 * x.quarter scale := by
    have hpos : (0 : ℚ) < x.gridScale scale := by exact_mod_cast x.gridScale_pos scale
    rw [← Nat.cast_lt (α := ℚ), Nat.cast_mul, cast_gridUnit, cast_quarter, ← mul_assoc]
    refine mul_lt_mul_of_pos_right ?_ hpos
    push_cast
    linarith
  have hunit : 0 < x.gridUnit scale :=
    Nat.mul_pos (Nat.pow_pos (by decide)) (Nat.two_pow_pos _)
  -- The point above is at most a step away, and there is more than a step up to the upper end.
  have habove : x.roundsHere scale (4 * x.mantissa * x.quarter scale / x.gridUnit scale + 1) = true := by
    have hover := Nat.lt_div_mul_add (a := 4 * x.mantissa * x.quarter scale) hunit
    have hunder := Nat.div_mul_le_self (4 * x.mantissa * x.quarter scale) (x.gridUnit scale)
    have hlow : (if x.mantissa = Nat.pow 2 52 ∧ minExponent < x.exponent then 4 * x.mantissa - 1
        else 4 * x.mantissa - 2) * x.quarter scale ≤ 4 * x.mantissa * x.quarter scale :=
      Nat.mul_le_mul_right _ (by split <;> omega)
    have hhigh : (4 * x.mantissa + 2) * x.quarter scale =
        4 * x.mantissa * x.quarter scale + 2 * x.quarter scale := Nat.add_mul _ _ _
    rw [roundsHere, Nat.add_mul, Nat.one_mul]
    split <;> rw [decide_eq_true_iff] <;> omega
  unfold gridPoint?
  dsimp only
  rw [habove]
  split <;> simp_all

/-! ## The grids that are searched -/

/-- Three decimal places are less than ten binary ones, and twenty-eight more than ninety-three. -/
theorem ten_zpow_lt_two_zpow {t e : Int} (h : 0 ≤ t ∧ 10 * t < 3 * e ∨ t < 0 ∧ 93 * t < 28 * e) :
    (10 : ℚ) ^ t < 2 ^ e := by
  rcases h with ⟨ht, h⟩ | ⟨ht, h⟩
  · refine lt_of_pow_lt_pow_left₀ 3 (by positivity) ?_
    obtain ⟨n, rfl⟩ := Int.eq_ofNat_of_zero_le ht
    calc ((10 : ℚ) ^ (n : ℤ)) ^ 3 = (10 ^ 3) ^ n := by rw [zpow_natCast, ← pow_mul, ← pow_mul, mul_comm]
      _ ≤ (2 ^ 10) ^ n := pow_le_pow_left₀ (by norm_num) (by norm_num) n
      _ = 2 ^ ((10 * n : ℕ) : ℤ) := by rw [zpow_natCast, pow_mul]
      _ < 2 ^ (e * 3) := zpow_lt_zpow_right₀ one_lt_two (by push_cast; omega)
      _ = ((2 : ℚ) ^ e) ^ 3 := by rw [zpow_mul, zpow_ofNat]
  · refine lt_of_pow_lt_pow_left₀ 28 (by positivity) ?_
    obtain ⟨n, rfl⟩ := Int.exists_eq_neg_ofNat ht.le
    calc ((10 : ℚ) ^ (-(n : ℤ))) ^ 28 = ((10 ^ 28) ^ n)⁻¹ := by
          rw [zpow_neg, zpow_natCast, inv_pow, ← pow_mul, ← pow_mul, mul_comm]
      _ ≤ ((2 ^ 93) ^ n)⁻¹ := inv_anti₀ (by positivity) (pow_le_pow_left₀ (by norm_num) (by norm_num) n)
      _ = 2 ^ (-((93 * n : ℕ) : ℤ)) := by rw [zpow_neg, zpow_natCast, pow_mul]
      _ < 2 ^ (e * 28) := zpow_lt_zpow_right₀ one_lt_two (by push_cast; omega)
      _ = ((2 : ℚ) ^ e) ^ 28 := by rw [zpow_mul, zpow_ofNat]

theorem last_grid_fine (hm : x.mantissa < 2 ^ 53) (hlow : minExponent ≤ x.exponent)
    (hhigh : x.exponent ≤ 971) : (10 : ℚ) ^ (x.topScale - 19) < 2 ^ x.exponent / 2 := by
  have hlog : x.mantissa.log2 ≤ 52 := by
    rcases Nat.eq_zero_or_pos x.mantissa with h | h
    · simp [h]
    · exact Nat.le_of_lt_succ ((Nat.log2_lt h.ne').mpr hm)
  have hhalf : (2 : ℚ) ^ x.exponent / 2 = 2 ^ (x.exponent - 1) := by rw [zpow_sub_one₀ two_ne_zero]; rfl
  rw [hhalf]
  apply ten_zpow_lt_two_zpow
  unfold topScale minExponent at *
  omega

theorem rounds_shortest (hm : x.mantissa < 2 ^ 53) (hlow : minExponent ≤ x.exponent)
    (hhigh : x.exponent ≤ 971) : x.Rounds x.shortest.value := by
  unfold shortest
  split
  · rename_i hzero
    have hvalue := x.rounds_value
    rw [value, hzero] at hvalue
    simpa [Digits.value] using hvalue
  · rename_i hzero
    have hpos := Nat.pos_of_ne_zero hzero
    obtain ⟨last, hlast⟩ := Option.isSome_iff_exists.mp
      (gridPoint?_isSome hpos (last_grid_fine hm hlow hhigh))
    dsimp only
    rw [Digits.value_strip]
    cases hfound : (List.range 20).findSome? fun (n : ℕ) =>
        (x.gridPoint? (x.topScale - n)).map fun c => (⟨c, x.topScale - n⟩ : Digits) with
    | none =>
      -- The last of the twenty grids is fine enough, so the search does not end without a point.
      have hnone := List.findSome?_eq_none_iff.mp hfound 19 (by decide)
      rw [Option.map_eq_none_iff] at hnone
      exact absurd (hlast.symm.trans hnone) (by simp)
    | some d =>
      obtain ⟨n, -, hn⟩ := List.exists_of_findSome?_eq_some hfound
      obtain ⟨c, hc, rfl⟩ := Option.map_eq_some_iff.mp hn
      exact rounds_of_gridPoint? hpos hc

end Dyadic

end WriteBehind.Decimal
