import WriteBehind.Decimal.Layout
import WriteBehind.Word

/-!
# JSON numbers

A number that is written as a whole number and fits 64 bits, signed or unsigned, is a whole number.
Every other one is a binary64 number: the significand, of which 64 bits are kept, times or divided by
a power of ten, each of the two operations rounded. A number beyond the binary64 range is refused.
-/

namespace WriteBehind.Json

/-- The parts of a number as it is written. The fraction is empty exactly when there is no point. -/
structure Numeral where
  negative : Bool
  whole : List Char
  fraction : List Char
  exponent : Option (Bool × List Char)
  deriving DecidableEq, Repr

inductive Number where
  | int (value : Int)
  | real (value : Float)
  deriving DecidableEq

/-- Reads digits into a significand for as long as it fits 64 bits; the rest is left over. -/
def absorb (significand : Nat) : List Char → Nat × List Char
  | [] => (significand, [])
  | c :: cs =>
    let next := significand * 10 + (c.toNat - '0'.toNat)
    if next < wordSize then absorb next cs else (significand, c :: cs)

/-- `x · 10 ^ exponent`, or `none` beyond the range. A very small exponent is taken in steps of 308;
a third step always leaves zero, so `fuel` 3 is enough. -/
def scaleByTen : Nat → Float → Int → Option Float
  | fuel, x, exponent =>
    if exponent.natAbs ≤ 308 then
      let power := Float.ofScientific 1 false exponent.natAbs
      if 0 ≤ exponent then
        let y := x * power
        if y.isInf then none else some y
      else
        some (x / power)
    else if x == 0 then
      some x
    else if 0 ≤ exponent then
      none
    else
      match fuel with
      | 0 => some 0
      | fuel + 1 => scaleByTen fuel (x / Float.ofScientific 1 false 308) (exponent + 308)

namespace Numeral

def real? (n : Numeral) : Option Float :=
  let (high, beyond) := absorb 0 n.whole
  let (significand, dropped) := absorb high n.fraction
  let shift : Int := match n.exponent with
    | none => 0
    | some (true, digits) => -(Nat.ofDigitChars 10 digits 0 : Int)
    | some (false, digits) => Nat.ofDigitChars 10 digits 0
  let scale := shift + beyond.length - (n.fraction.length - dropped.length : Nat)
  (scaleByTen 3 (wordToFloat significand) scale).map fun x => if n.negative then -x else x

def isWhole (n : Numeral) : Bool := n.fraction.isEmpty && n.exponent.isNone

/-- The value. Minus zero is not a whole number, since whole numbers have no sign of zero. -/
def value? (n : Numeral) : Option Number :=
  let size := Nat.ofDigitChars 10 n.whole 0
  if n.isWhole && !n.negative && size < wordSize then
    some (.int size)
  else if n.isWhole && n.negative && size ≠ 0 && size ≤ wordSize / 2 then
    some (.int (-size))
  else
    n.real?.map .real

end Numeral

namespace Number

/-- Numbers in documents: in full from `10 ^ -5` below `10 ^ 16`, and a fraction always shows. -/
def layout : Decimal.Layout where
  inFull := fun e => decide (-5 ≤ e ∧ e < 16)
  pointZero := true

def text : Number → String
  | int value => toString value
  | real value => ((Decimal.Dyadic.ofFloat? value).map layout.signed).getD "null"

end Number

end WriteBehind.Json
