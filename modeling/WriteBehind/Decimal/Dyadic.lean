/-!
# Binary64 numbers as exact fractions

A finite binary64 number is `± mantissa · 2 ^ exponent`. All printing of decimals starts from this
form, so it is exact arithmetic on natural numbers.
-/

namespace WriteBehind.Decimal

structure Dyadic where
  negative : Bool
  mantissa : Nat
  exponent : Int
  deriving DecidableEq, Repr

namespace Dyadic

def minExponent : Int := -1074

/-- The exact value of a binary64 number; infinities and NaN have none. -/
def ofFloat? (x : Float) : Option Dyadic :=
  let bits := x.toBits.toNat
  let biased := bits / Nat.pow 2 52 % Nat.pow 2 11
  let fraction := bits % Nat.pow 2 52
  if biased = Nat.pow 2 11 - 1 then
    none
  else
    some {
      negative := decide (Nat.pow 2 63 ≤ bits)
      mantissa := if biased = 0 then fraction else fraction + Nat.pow 2 52
      exponent := (max biased 1 : Nat) + (minExponent - 1) }

def twoPow (e : Int) : Nat := Nat.pow 2 e.toNat

def tenPow (e : Int) : Nat := Nat.pow 10 e.toNat

def ceil (x : Dyadic) : Nat :=
  if x.negative then 0
  else (x.mantissa * twoPow x.exponent + (twoPow (-x.exponent) - 1)) / twoPow (-x.exponent)

theorem ceil_le_iff {x : Dyadic} (h : x.negative = false) (n : Nat) :
    x.ceil ≤ n ↔ x.mantissa * twoPow x.exponent ≤ n * twoPow (-x.exponent) := by
  have hpos : 0 < twoPow (-x.exponent) := Nat.two_pow_pos _
  rw [ceil, h, if_neg Bool.false_ne_true, ← Nat.lt_succ_iff, Nat.div_lt_iff_lt_mul hpos, Nat.succ_mul]
  omega

end Dyadic

end WriteBehind.Decimal
