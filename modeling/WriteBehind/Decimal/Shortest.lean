import WriteBehind.Decimal.Dyadic

/-!
# The fewest digits that read back

Every real number in an interval around a binary64 number rounds to it. The shortest decimal is the
one in this interval that lies on the coarsest power-of-ten grid; of two on the same grid it is the
nearer. If any point of a grid lies in the interval then one of the two grid points next to the
number does, so only these two are tested.
-/

namespace WriteBehind.Decimal

structure Digits where
  digits : Nat
  scale : Int
  deriving DecidableEq, Repr

def Digits.strip : Nat → Digits → Digits
  | 0, d => d
  | fuel + 1, d =>
    if d.digits ≠ 0 ∧ d.digits % 10 = 0 then
      strip fuel { digits := d.digits / 10, scale := d.scale + 1 }
    else
      d

namespace Dyadic

/-- A step of the grid of multiples of `10 ^ scale`, and below a quarter of the last mantissa bit, in one
unit that makes both of them whole. -/
def gridUnit (x : Dyadic) (scale : Int) : Nat := tenPow scale * twoPow (2 - x.exponent)

def quarter (x : Dyadic) (scale : Int) : Nat := tenPow (-scale) * twoPow (x.exponent - 2)

/-- Does the point `c` of the grid round to `|x|`? In quarters of the last mantissa bit the number is
`4 · mantissa`, and what rounds to it reaches from `low` to `4 · mantissa + 2`; the ends belong to it when
the mantissa is even. Below a power of two the spacing is halved, so the lower end is nearer there. -/
def roundsHere (x : Dyadic) (scale : Int) (c : Nat) : Bool :=
  let low := (if x.mantissa = Nat.pow 2 52 ∧ minExponent < x.exponent then 4 * x.mantissa - 1
    else 4 * x.mantissa - 2) * x.quarter scale
  let high := (4 * x.mantissa + 2) * x.quarter scale
  let point := c * x.gridUnit scale
  if x.mantissa % 2 = 0 then decide (low ≤ point ∧ point ≤ high) else decide (low < point ∧ point < high)

def gridPoint? (x : Dyadic) (scale : Int) : Option Nat :=
  let here := 4 * x.mantissa * x.quarter scale
  let below := here / x.gridUnit scale
  let above := below + 1
  match x.roundsHere scale below, x.roundsHere scale above with
  | true, false => some below
  | false, true => some above
  | true, true =>
    let down := here - below * x.gridUnit scale
    let up := above * x.gridUnit scale - here
    some (if down < up ∨ (down = up ∧ below % 2 = 0) then below else above)
  | false, false => none

def topScale (x : Dyadic) : Int :=
  ((x.mantissa.log2 : Int) + x.exponent + 1) * 30103 / 100000 + 1

/-- The shortest decimal that reads back as `|x|`. Seventeen digits always suffice. -/
def shortest (x : Dyadic) : Digits :=
  if x.mantissa = 0 then
    { digits := 0, scale := 0 }
  else
    let found := (List.range 20).findSome? fun (n : Nat) =>
      let scale := x.topScale - n
      (x.gridPoint? scale).map fun c => ({ digits := c, scale } : Digits)
    (found.getD { digits := 0, scale := 0 }).strip 20

end Dyadic

end WriteBehind.Decimal
