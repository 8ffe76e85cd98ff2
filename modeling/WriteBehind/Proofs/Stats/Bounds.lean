import WriteBehind.Proofs.Decimal.Reading
import WriteBehind.Proofs.Word
import WriteBehind.Stats.Exposition

/-!
# Bounds in seconds

A bound is a word of microseconds, and what is written for it are the fewest digits that read back as its
binary64 quotient by a million. On this way it is rounded twice, and then a decimal is chosen in the interval
of the quotient. None of the three steps turns an order around, so the decimals stand in the order of the
bounds. They can be the same, but not for bounds that binary64 numbers tell apart well enough.
-/

namespace WriteBehind

namespace Exporter

variable {n n' : ℕ}

structure Written (n : ℕ) (x y : Decimal.Dyadic) : Prop where
  word : x.Canonical ∧ 2 ^ 52 ≤ x.mantissa
  rounded : x.Rounds n
  float : Decimal.Dyadic.ofFloat? (microsToSecs n) = some y
  positive : y.negative = false
  leading : 2 ^ 52 ≤ y.mantissa
  divided : y.Rounds (x.value / 1000000)

theorem exists_written (hn : n ≠ 0) (h : n < wordSize) : ∃ x y, Written n x y := by
  obtain ⟨m, e, pos, hword, hm, hm', hlow, hhigh, hrounds⟩ := Rounding.unpack_wordToFloat hn h
  have hmillion : (1000000 : Float).toModel.unpack =
      .finite .positive 8589934592000000 (-33) (by decide) := rfl
  obtain ⟨m', e', pos', hquot, hm'', hdivided⟩ := Rounding.unpack_div hword hmillion hm hm' (by decide)
    (by decide) (by omega) (by omega)
  have hvalue : ((8589934592000000 : ℕ) : ℚ) * 2 ^ (-33 : ℤ) = 1000000 := by norm_num
  rw [hvalue] at hdivided
  exact ⟨⟨false, m, e⟩, ⟨false, m', e'⟩,
    ⟨(Decimal.Dyadic.canonical_of_ofFloat? (Rounding.ofFloat?_of_unpack hword)).1, hm⟩, hrounds,
    Rounding.ofFloat?_of_unpack hquot, rfl, hm'', hdivided⟩

namespace Written

variable {x y x' y' : Decimal.Dyadic}

theorem canonical (q : Written n x y) : y.Canonical := (Decimal.Dyadic.canonical_of_ofFloat? q.float).1

theorem rounds_shortest (q : Written n x y) : y.Rounds y.shortest.value :=
  Decimal.Dyadic.rounds_shortest q.canonical.mantissa_lt q.canonical.exponent_ge
    (Decimal.Dyadic.canonical_of_ofFloat? q.float).2

theorem read?_boundText (q : Written n x y) : Decimal.read? (boundText n) = some y.shortest.value := by
  have htext : boundText n = MetricLine.layout.full y.shortest := by
    unfold boundText Decimal.Layout.text
    rw [q.float]
    dsimp only
    rw [Decimal.Layout.signed, q.positive, if_neg Bool.false_ne_true, String.empty_append]
    exact if_pos (.inr rfl)
  rw [htext]
  exact Decimal.read?_full rfl _

theorem value_le (q : Written n x y) (q' : Written n' x' y') (h : n ≤ n') : y.value ≤ y'.value := by
  have hword : x.value ≤ x'.value :=
    Decimal.Dyadic.value_le_of_rounds q.word.1 q'.word.1 q.rounded q'.rounded (by exact_mod_cast h)
  exact Decimal.Dyadic.value_le_of_rounds q.canonical q'.canonical q.divided q'.divided
    (div_le_div_of_nonneg_right hword (by norm_num))

theorem eq_of_value_eq (q : Written n x y) (q' : Written n' x' y') (h : y.value = y'.value) : y = y' :=
  Decimal.Dyadic.eq_of_value_eq q.canonical q'.canonical (q.positive.trans q'.positive.symm) h

theorem shortest_le (q : Written n x y) (q' : Written n' x' y') (h : n ≤ n') :
    y.shortest.value ≤ y'.shortest.value := by
  rcases (q.value_le q' h).lt_or_eq with hlt | heq
  · exact (Decimal.Dyadic.lt_of_rounds_of_lt q.canonical q'.canonical hlt q.rounds_shortest q'.rounds_shortest).le
  · rw [q.eq_of_value_eq q' heq]

theorem float_eq (q : Written n x y) (q' : Written n' x' y')
    (h : y.shortest.value = y'.shortest.value) : microsToSecs n = microsToSecs n' := by
  have hvalue := Decimal.Dyadic.value_eq_of_rounds q.canonical q'.canonical q.rounds_shortest
    (h ▸ q'.rounds_shortest)
  have hsame := q.eq_of_value_eq q' hvalue
  exact Decimal.Dyadic.ofFloat?_inj q.float (hsame ▸ q'.float)

/-- Of the three steps, each adds at most half a place to the error. -/
theorem abs_sub_le (q : Written n x y) : |y.shortest.value * 10 ^ 6 - n| ≤ (n : ℚ) / 2 ^ 51 := by
  have hx := abs_le.mp (q.rounded.abs_sub_le_value q.word.2)
  have hy := abs_le.mp (q.divided.abs_sub_le_value q.leading)
  have hs := abs_le.mp (q.rounds_shortest.abs_sub_le_value q.leading)
  rw [abs_le]
  constructor <;> linarith

end Written

/-! ## The decimals of the bounds -/

/-- The seconds that are written for a bound. -/
def boundSeconds (n : ℕ) : ℚ := (Decimal.read? (boundText n)).getD 0

theorem Written.boundSeconds_eq {x y : Decimal.Dyadic} (q : Written n x y) :
    boundSeconds n = y.shortest.value := by
  rw [boundSeconds, q.read?_boundText]
  rfl

theorem boundText_zero : boundText 0 = "0" := rfl

theorem read?_zero : Decimal.read? (boundText 0) = some 0 := by
  rw [boundText_zero]
  exact Decimal.read?_whole (List.cons_ne_nil '0' []) (by simp)

theorem boundSeconds_zero : boundSeconds 0 = 0 := by
  rw [boundSeconds, read?_zero]
  rfl

theorem read?_boundText (h : n < wordSize) : Decimal.read? (boundText n) = some (boundSeconds n) := by
  rcases eq_or_ne n 0 with rfl | hn
  · rw [boundSeconds_zero, read?_zero]
  · obtain ⟨x, y, q⟩ := exists_written hn h
    rw [q.boundSeconds_eq, q.read?_boundText]

theorem boundSeconds_near (h : n < wordSize) : |boundSeconds n * 10 ^ 6 - n| ≤ (n : ℚ) / 2 ^ 51 := by
  rcases eq_or_ne n 0 with rfl | hn
  · simp [boundSeconds_zero]
  · obtain ⟨x, y, q⟩ := exists_written hn h
    rw [q.boundSeconds_eq]
    exact q.abs_sub_le

theorem boundSeconds_pos (hn : n ≠ 0) (h : n < wordSize) : 0 < boundSeconds n := by
  have hnear := (abs_le.mp (boundSeconds_near h)).1
  have hpos : (0 : ℚ) < n := by exact_mod_cast Nat.pos_of_ne_zero hn
  linarith

theorem boundSeconds_mono (hle : n ≤ n') (h : n' < wordSize) : boundSeconds n ≤ boundSeconds n' := by
  rcases eq_or_ne n' 0 with rfl | hn'
  · rw [Nat.le_zero.mp hle]
  rcases eq_or_ne n 0 with rfl | hn
  · rw [boundSeconds_zero]
    exact (boundSeconds_pos hn' h).le
  obtain ⟨x, y, q⟩ := exists_written hn (hle.trans_lt h)
  obtain ⟨x', y', q'⟩ := exists_written hn' h
  rw [q.boundSeconds_eq, q'.boundSeconds_eq]
  exact q.shortest_le q' hle

theorem boundSeconds_lt (hlt : n < n') (h : n' ≤ 2 ^ 50) : boundSeconds n < boundSeconds n' := by
  have hword : n' < wordSize := h.trans_lt (by decide)
  have hnear := (abs_le.mp (boundSeconds_near (hlt.trans hword))).2
  have hnear' := (abs_le.mp (boundSeconds_near hword)).1
  have hstep : (n : ℚ) + 1 ≤ n' := by exact_mod_cast hlt
  have hlast : (n' : ℚ) ≤ 2 ^ 50 := by exact_mod_cast h
  linarith

/-- Two bounds are written alike just when their quotients are the same binary64 number. -/
theorem boundText_eq_iff (h : n < wordSize) (h' : n' < wordSize) :
    boundText n = boundText n' ↔ microsToSecs n = microsToSecs n' := by
  refine ⟨fun htext => ?_, congrArg MetricLine.layout.text⟩
  have heq : boundSeconds n = boundSeconds n' := by rw [boundSeconds, boundSeconds, htext]
  rcases eq_or_ne n 0 with rfl | hn
  · rcases eq_or_ne n' 0 with rfl | hn'
    · rfl
    · exact absurd (boundSeconds_zero.symm.trans heq) (boundSeconds_pos hn' h').ne
  rcases eq_or_ne n' 0 with rfl | hn'
  · exact absurd (boundSeconds_zero.symm.trans heq.symm) (boundSeconds_pos hn h).ne
  obtain ⟨x, y, q⟩ := exists_written hn h
  obtain ⟨x', y', q'⟩ := exists_written hn' h'
  rw [q.boundSeconds_eq, q'.boundSeconds_eq] at heq
  exact q.float_eq q' heq

theorem boundSeconds_maxWord : boundSeconds maxWord = 18446744073709.55 := by
  have htext : boundText maxWord = MetricLine.layout.full ⟨1844674407370955, -2⟩ := rfl
  rw [boundSeconds, htext, Decimal.read?_full rfl, Option.getD_some, Decimal.Digits.value]
  norm_num

theorem boundSeconds_lt_maxWord (h : n < wordSize) : boundSeconds n * 10 ^ 6 < maxWord := by
  have hlast : maxWord < wordSize := by unfold maxWord wordSize; omega
  have hle := boundSeconds_mono (show n ≤ maxWord from Nat.le_sub_one_of_lt h) hlast
  rw [boundSeconds_maxWord] at hle
  have hmax : (maxWord : ℚ) = 18446744073709551615 := by norm_num [maxWord, wordSize]
  rw [hmax]
  linarith

end Exporter

end WriteBehind
