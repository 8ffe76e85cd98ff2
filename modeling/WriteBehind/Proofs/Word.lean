import WriteBehind.Proofs.Decimal.Quotients
import WriteBehind.Word

/-!
# Words as binary64 numbers

The mantissa and the exponent of a number are read off its bits. A word becomes the number that it rounds to,
so the order of words is kept.
-/

open Float.Model Float.Model.UnpackedFloat

namespace WriteBehind

namespace Rounding

/-! ## Bits -/

theorem toNat_leading (v : BitVec 52) : (1#1 ++ v).toNat = 2 ^ 52 + v.toNat := by
  rw [BitVec.toNat_append, ← Nat.shiftLeft_add_eq_or_of_lt v.isLt]
  rfl

theorem toNat_of_positive {s : BitVec 1} (h : Sign.ofBitVec s = .positive) : s.toNat = 0 := by
  have hpos := congrArg Sign.toBitVec h
  rw [Sign.toBitVec_ofBitVec] at hpos
  exact congrArg BitVec.toNat hpos

theorem toNat_unpackMantissa (b : BitVec 64) : (@unpackMantissa .binary64 b).toNat = b.toNat % 2 ^ 52 := by
  rw [unpackMantissa_def, BitVec.extractLsb'_toNat]
  rfl

theorem toNat_unpackExponent (b : BitVec 64) :
    (@unpackExponent .binary64 b).toNat = b.toNat / 2 ^ 52 % 2 ^ 11 := by
  rw [unpackExponent_def, BitVec.extractLsb'_toNat, Nat.shiftRight_eq_div_pow]

theorem unpack_eq_zero {b : BitVec 64} {s : Sign} (h : UnpackedFloat.unpack .binary64 b = .zero s) :
    b.toNat % 2 ^ 52 = 0 ∧ b.toNat / 2 ^ 52 % 2 ^ 11 = 0 := by
  rw [← toNat_unpackMantissa, ← toNat_unpackExponent]
  simp only [UnpackedFloat.unpack] at h
  split at h
  · split at h <;> cases h
  split at h
  · rename_i hsub
    split at h
    · rename_i hzero
      exact ⟨congrArg BitVec.toNat hzero, congrArg BitVec.toNat hsub⟩
    · cases h
  · cases h

theorem unpack_eq_finite {b : BitVec 64} {m : ℕ} {e : ℤ} {pos : 0 < m}
    (h : UnpackedFloat.unpack .binary64 b = .finite .positive m e pos) :
    b.toNat / 2 ^ 63 = 0 ∧ b.toNat / 2 ^ 52 % 2 ^ 11 ≠ 2 ^ 11 - 1 ∧
    m = (if b.toNat / 2 ^ 52 % 2 ^ 11 = 0 then b.toNat % 2 ^ 52 else b.toNat % 2 ^ 52 + 2 ^ 52) ∧
    e = (max (b.toNat / 2 ^ 52 % 2 ^ 11) 1 : ℕ) - 1075 := by
  have hs : (@unpackSign .binary64 b).toNat = b.toNat / 2 ^ 63 := by
    rw [unpackSign_def, BitVec.extractLsb'_toNat, Nat.shiftRight_eq_div_pow]
    exact Nat.mod_eq_of_lt (by have := b.isLt; change _ / 2 ^ 63 < 2; omega)
  have hbias : (Format.binary64.exponentBias : ℤ) + Format.binary64.mantissaBitsWithoutImplicit = 1075 := rfl
  simp only [UnpackedFloat.unpack, hbias] at h
  rw [← toNat_unpackMantissa, ← toNat_unpackExponent, ← hs]
  split at h
  · split at h <;> cases h
  rename_i hinf
  have hne : (@unpackExponent .binary64 b).toNat ≠ 2 ^ 11 - 1 :=
    fun heq => hinf (BitVec.toNat_inj.mp heq)
  split at h
  · rename_i hsub
    split at h
    · cases h
    have hzero : (@unpackExponent .binary64 b).toNat = 0 := congrArg BitVec.toNat hsub
    obtain ⟨-, hmm, hee⟩ := finite.inj h
    exact ⟨toNat_of_positive (finite.inj h).1, hne, by rw [if_pos hzero, hmm], by omega⟩
  · rename_i hnorm
    have hzero : (@unpackExponent .binary64 b).toNat ≠ 0 :=
      fun heq => hnorm (BitVec.toNat_inj.mp heq)
    obtain ⟨-, hmm, hee⟩ := finite.inj h
    rw [toNat_leading] at hmm
    exact ⟨toNat_of_positive (finite.inj h).1, hne, by rw [if_neg hzero, ← hmm, add_comm], by omega⟩

theorem ofFloat?_of_unpack {x : Float} {m : ℕ} {e : ℤ} {pos : 0 < m}
    (h : x.toModel.unpack = .finite .positive m e pos) :
    Decimal.Dyadic.ofFloat? x = some ⟨false, m, e⟩ := by
  obtain ⟨hs, hfin, hm, he⟩ := unpack_eq_finite (b := x.toModel.toBits.toBitVec) h
  refine Decimal.Dyadic.ofFloat?_eq_some.mpr ⟨hfin, ?_, hm, he⟩
  change false = decide (2 ^ 63 ≤ x.toModel.toBits.toBitVec.toNat)
  rw [eq_comm, decide_eq_false_iff_not]
  omega

theorem unpack_pack {m : ℕ} {e : ℤ} (hm : 2 ^ 52 ≤ m) (hm' : m < 2 ^ 53) (he : -1074 ≤ e) (he' : e ≤ 971)
    (pos : 0 < m) : (Float.Model.pack (.finite .positive m e pos)).unpack = .finite .positive m e pos := by
  have hlog := log2_of_leading hm hm'
  obtain ⟨b, hb⟩ : ∃ b : ℕ, e + 1075 = b := ⟨(e + 1075).toNat, by omega⟩
  have hbits : (BitVec.ofNat 11 b).toNat = b := Nat.mod_eq_of_lt (by omega)
  have hzero : BitVec.ofNat 11 b ≠ 0#11 := fun h => by
    have := congrArg BitVec.toNat h
    simp only [hbits, BitVec.toNat_zero] at this
    omega
  have hones : BitVec.ofNat 11 b ≠ -1#11 := fun h => by
    have := congrArg BitVec.toNat h
    rw [hbits] at this
    change b = 2047 at this
    omega
  have hpack : UnpackedFloat.pack .binary64 (.finite .positive m e pos) =
      packComponents .binary64 .positive (BitVec.ofNat 11 b) (BitVec.ofNat 52 m) := by
    have hbiased : (e + Format.binary64.exponentBias + (52 : ℕ)).toNat = b := by
      change (e + 1023 + 52).toNat = b
      omega
    simp only [UnpackedFloat.pack, hbiased, hlog]
    exact (if_neg (show ¬ 2 ^ 11 ≤ b + 1 by omega)).trans (if_pos rfl)
  change UnpackedFloat.unpack .binary64 (UnpackedFloat.pack .binary64 (.finite .positive m e pos)) = _
  rw [hpack]
  simp only [UnpackedFloat.unpack, unpackExponent_packComponents, unpackMantissa_packComponents,
    unpackSign_packComponents, if_neg hzero, if_neg hones, hbits, toNat_leading, BitVec.toNat_ofNat]
  have hmantissa : 2 ^ 52 + m % 2 ^ 52 = m := by omega
  have hexponent : (b : ℤ) - (Format.binary64.exponentBias + (52 : ℕ)) = e := by
    change (b : ℤ) - (1023 + 52) = e
    omega
  simp only [hmantissa, hexponent]
  rfl

theorem ofFloat?_of_zero {x : Float} {s : Sign} (h : x.toModel.unpack = .zero s) :
    ∃ negative, Decimal.Dyadic.ofFloat? x = some ⟨negative, 0, -1074⟩ := by
  obtain ⟨hm, he⟩ := unpack_eq_zero (b := x.toModel.toBits.toBitVec) h
  refine ⟨_, Decimal.Dyadic.ofFloat?_eq_some.mpr ⟨?_, rfl, ?_, ?_⟩⟩ <;>
    change x.toBits.toNat / 2 ^ 52 % 2 ^ 11 = 0 at he <;> rw [he]
  · decide
  · exact hm.symm
  · rfl

theorem unpack_wordToFloat {n : ℕ} (hn : n ≠ 0) (h : n < wordSize) : ∃ m e pos,
    (wordToFloat n).toModel.unpack = .finite .positive m e pos ∧ 2 ^ 52 ≤ m ∧ m < 2 ^ 53 ∧
    -52 ≤ e ∧ e ≤ 12 ∧ (⟨false, m, e⟩ : Decimal.Dyadic).Rounds n := by
  have hword : n.toUInt64.toNat = n := by
    rw [Nat.toUInt64, UInt64.toNat_ofNat']
    exact Nat.mod_eq_of_lt h
  have hlog : n.log2 < 64 := (Nat.log2_lt hn).mpr h
  obtain ⟨m, e, pos, heq, hm, hm', hle, hge, hrounds⟩ := ofNat_rounds hn
  refine ⟨m, e, pos, ?_, hm, hm', by omega, by omega, hrounds⟩
  change (Float.Model.pack (UnpackedFloat.ofNat .binary64 n.toUInt64.toNat)).unpack = _
  rw [hword, heq]
  exact unpack_pack hm hm' (by omega) (by omega) pos

theorem unpack_div {a b : Float} {m₁ m₂ : ℕ} {e₁ e₂ : ℤ} {pos₁ : 0 < m₁} {pos₂ : 0 < m₂}
    (ha : a.toModel.unpack = .finite .positive m₁ e₁ pos₁)
    (hb : b.toModel.unpack = .finite .positive m₂ e₂ pos₂)
    (hm₁ : 2 ^ 52 ≤ m₁) (hm₁' : m₁ < 2 ^ 53) (hm₂ : 2 ^ 52 ≤ m₂) (hm₂' : m₂ < 2 ^ 53)
    (he : -1021 ≤ e₁ - e₂) (he' : e₁ - e₂ ≤ 1022) : ∃ m e pos,
    (a / b).toModel.unpack = .finite .positive m e pos ∧ 2 ^ 52 ≤ m ∧
    (⟨false, m, e⟩ : Decimal.Dyadic).Rounds (m₁ * 2 ^ e₁ / (m₂ * 2 ^ e₂)) := by
  obtain ⟨m, e, pos, heq, hm, hm', hle, hge, hrounds⟩ := div_rounds pos₁ pos₂ hm₁ hm₁' hm₂ hm₂' he
  refine ⟨m, e, pos, ?_, hm, hrounds⟩
  change (Float.Model.pack (UnpackedFloat.div .binary64 a.toModel.unpack b.toModel.unpack)).unpack = _
  rw [ha, hb, heq]
  exact unpack_pack hm hm' (by omega) (by omega) pos

theorem le_iff (x y : Float) : x ≤ y ↔ x.toModel.unpack.le y.toModel.unpack = true := by
  show x.le y = true ↔ _
  unfold Float.le
  rw [decide_eq_true_iff]
  rfl

theorem lt_iff (x y : Float) : x < y ↔ x.toModel.unpack.lt y.toModel.unpack = true := by
  show x.lt y = true ↔ _
  unfold Float.lt
  rw [decide_eq_true_iff]
  rfl

theorem ofFloat?_of_lt_one {x : Float} (h0 : 0 ≤ x) (h1 : x < 1) :
    ∃ d, Decimal.Dyadic.ofFloat? x = some d ∧ d.value < 1 := by
  have hzero : (0 : Float).toModel.unpack = .zero .positive := rfl
  have hone : (1 : Float).toModel.unpack = .finite .positive (2 ^ 52) (-52) (by decide) := rfl
  rw [le_iff, hzero] at h0
  rw [lt_iff, hone] at h1
  cases hx : x.toModel.unpack with
  | notANumber => rw [hx] at h1; cases h1
  | infinity s =>
    cases s with
    | negative => rw [hx] at h0; cases h0
    | positive => rw [hx] at h1; cases h1
  | zero s =>
    obtain ⟨negative, hd⟩ := ofFloat?_of_zero hx
    exact ⟨_, hd, by norm_num [Decimal.Dyadic.value]⟩
  | finite s m e pos =>
    cases s with
    | negative => rw [hx] at h0; cases h0
    | positive =>
      have hd := ofFloat?_of_unpack hx
      have hunit := ofFloat?_of_unpack hone
      have hcanonical := (Decimal.Dyadic.canonical_of_ofFloat? hd).1
      refine ⟨_, hd, ?_⟩
      rw [hx] at h1
      have hcompare : (compare e (-52)).then (compare m (2 ^ 52)) = .lt := Option.some.inj (beq_iff_eq.mp h1)
      -- The number one has the least mantissa of 53 bits, so what is less has a lower exponent.
      have hexponent : e < -52 := by
        have hlead := hcanonical.leading
        have hmin : Decimal.Dyadic.minExponent = -1074 := rfl
        dsimp only at hlead
        rcases Ordering.then_eq_lt.mp hcompare with hlt | ⟨heq, hlt⟩
        · exact compare_lt_iff_lt.mp hlt
        · have := compare_eq_iff_eq.mp heq
          have := compare_lt_iff_lt.mp hlt
          omega
      calc (⟨false, m, e⟩ : Decimal.Dyadic).value
          < (⟨false, 2 ^ 52, -52⟩ : Decimal.Dyadic).value :=
            Decimal.Dyadic.value_lt_of_exponent_lt hcanonical
              (Decimal.Dyadic.canonical_of_ofFloat? hunit).1 hexponent
        _ = 1 := by norm_num [Decimal.Dyadic.value]

theorem finite_le {m m' : ℕ} {e e' : ℤ} (pos : 0 < m) (pos' : 0 < m')
    (h : e < e' ∨ (e = e' ∧ m ≤ m')) :
    (UnpackedFloat.finite .positive m e pos).le (.finite .positive m' e' pos') = true := by
  change ((compare e e').then (compare m m')).isLE = true
  rcases h with hlt | ⟨rfl, hle⟩
  · rw [compare_lt_iff_lt.mpr hlt]
    rfl
  · rw [compare_eq_iff_eq.mpr rfl]
    exact Nat.isLE_compare.mpr hle

end Rounding

theorem wordToFloat_le_wordToFloat {n n' : ℕ} (h : n ≤ n') (hword : n' < wordSize) :
    wordToFloat n ≤ wordToFloat n' := by
  rw [Rounding.le_iff]
  rcases Nat.eq_zero_or_pos n' with rfl | hpos'
  · obtain rfl := Nat.le_zero.mp h
    rfl
  obtain ⟨m', e', pos', heq', -, -, -, -, hrounds'⟩ := Rounding.unpack_wordToFloat hpos'.ne' hword
  rcases Nat.eq_zero_or_pos n with rfl | hpos
  · rw [heq']
    rfl
  obtain ⟨m, e, pos, heq, -, -, -, -, hrounds⟩ := Rounding.unpack_wordToFloat hpos.ne' (h.trans_lt hword)
  have hcx := (Decimal.Dyadic.canonical_of_ofFloat? (Rounding.ofFloat?_of_unpack heq)).1
  have hcy := (Decimal.Dyadic.canonical_of_ofFloat? (Rounding.ofFloat?_of_unpack heq')).1
  have hvalue := Decimal.Dyadic.value_le_of_rounds hcx hcy hrounds hrounds' (by exact_mod_cast h)
  rw [heq, heq']
  exact Rounding.finite_le pos pos' (Decimal.Dyadic.le_of_value_le hcx hcy hvalue)

end WriteBehind
