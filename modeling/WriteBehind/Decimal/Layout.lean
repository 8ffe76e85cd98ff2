import WriteBehind.Decimal.Shortest

/-!
# Writing shortest decimals

A `Layout` says how a format writes the digits of a number: which magnitudes it writes in full, and
whether whole numbers keep a fraction.
-/

namespace WriteBehind.Decimal

structure Layout where
  inFull : Int → Bool
  pointZero : Bool
  nan : String := "NaN"
  infinity : String := "inf"

def zeros (n : Nat) : String := String.ofList (List.replicate n '0')

namespace Layout

def full (l : Layout) (d : Digits) : String :=
  let text := Nat.toDigits 10 d.digits
  let point := (text.length : Int) + d.scale
  if 0 ≤ d.scale then
    String.ofList text ++ zeros d.scale.toNat ++ (if l.pointZero then ".0" else "")
  else if 0 < point then
    String.ofList (text.take point.toNat) ++ "." ++ String.ofList (text.drop point.toNat)
  else
    "0." ++ zeros (-point).toNat ++ String.ofList text

def scientific (d : Digits) : String :=
  let text := Nat.toDigits 10 d.digits
  let exponent := (text.length : Int) - 1 + d.scale
  String.ofList (text.take 1) ++
    (if text.length ≤ 1 then "" else "." ++ String.ofList (text.drop 1)) ++
    "e" ++ (if exponent < 0 then "-" else "+") ++ toString exponent.natAbs

def magnitude (l : Layout) (d : Digits) : String :=
  let exponent := ((Nat.toDigits 10 d.digits).length : Int) - 1 + d.scale
  if d.digits = 0 ∨ l.inFull exponent then l.full d else scientific d

def signed (l : Layout) (x : Dyadic) : String :=
  (if x.negative then "-" else "") ++ l.magnitude x.shortest

def text (l : Layout) (x : Float) : String :=
  match Dyadic.ofFloat? x with
  | some d => l.signed d
  | none => if x.isNaN then l.nan else if x < 0 then "-" ++ l.infinity else l.infinity

end Layout

end WriteBehind.Decimal
