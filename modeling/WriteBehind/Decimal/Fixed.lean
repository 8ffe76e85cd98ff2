import WriteBehind.Decimal.Layout

/-!
# Decimals with a fixed number of places

The exact binary value is rounded to a whole number of units of the last place; a half goes to the
even neighbour.
-/

namespace WriteBehind.Decimal

/-- The quotient rounded to the nearest whole number, a half to the even one. -/
def roundHalfEven (num den : Nat) : Nat :=
  let below := num / den
  let rest := 2 * (num % den)
  if rest < den ∨ (rest = den ∧ below % 2 = 0) then below else below + 1

def pointed (places units : Nat) : String :=
  let text := Nat.toDigits 10 units
  let padded := List.replicate (places + 1 - text.length) '0' ++ text
  let whole := padded.length - places
  String.ofList (padded.take whole) ++
    (if places = 0 then "" else "." ++ String.ofList (padded.drop whole))

def fixed (places : Nat) (x : Float) : String :=
  match Dyadic.ofFloat? x with
  | some d =>
    let units := roundHalfEven (d.mantissa * Dyadic.twoPow d.exponent * Nat.pow 10 places)
      (Dyadic.twoPow (-d.exponent))
    (if d.negative then "-" else "") ++ pointed places units
  | none => if x.isNaN then "NaN" else if x < 0 then "-inf" else "inf"

end WriteBehind.Decimal
