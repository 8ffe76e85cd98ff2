import WriteBehind.Toml.Text

/-!
# TOML: numbers, dates and times

Only whole numbers keep their value; of the others and of dates it is checked that they are
well-formed, since no record asks for one.
-/

namespace WriteBehind.Toml

inductive Scalar where
  | string (value : String)
  | int (value : Int)
  | real
  | bool (value : Bool)
  | moment
  deriving DecidableEq, Repr

/-- Reads digits that satisfy `isDigit`; a single underscore may stand between two of them. There has
to be a digit at the start. The underscores are dropped. -/
def scanDigits (isDigit : Char → Bool) : List Char → Option (List Char × List Char)
  | [] => none
  | c :: cs =>
    if isDigit c then
      match cs with
      | '_' :: cs => (scanDigits isDigit cs).map fun (found, cs) => (c :: found, cs)
      | cs =>
        match scanDigits isDigit cs with
        | some (found, cs) => some (c :: found, cs)
        | none => if (cs.head?.map isDigit).getD false then none else some ([c], cs)
    else
      none

def scanDecimal : List Char → Option (List Char × List Char) := scanDigits Char.isDigit

def fitsInt64 (n : Int) : Bool := decide (-0x8000000000000000 ≤ n ∧ n < 0x8000000000000000)

def scanBased (base : Nat) (cs : List Char) : Option (Scalar × List Char) := do
  let isDigit (c : Char) : Bool := match Json.hexValue? c with
    | some d => decide (d < base)
    | none => false
  let (digits, cs) ← scanDigits isDigit cs
  let value : Int := digits.foldl (fun acc c => acc * base + (Json.hexValue? c).getD 0) 0
  if fitsInt64 value then return (.int value, cs) else none

def overflows (digits : List Char) (scale : Int) : Bool :=
  let significant := digits.dropWhile (· == '0')
  let top := (significant.length : Int) + scale
  if significant.isEmpty || top < 300 then false
  else if 400 < top then true
  else
    let n := Nat.ofDigitChars 10 significant 0
    (Float.ofScientific n (decide (scale < 0)) scale.natAbs).isInf

def scanSign : List Char → Bool × List Char
  | '-' :: cs => (true, cs)
  | '+' :: cs => (false, cs)
  | cs => (false, cs)

def scanWhole (cs : List Char) : Option (List Char × List Char) :=
  match cs with
  | '0' :: cs => some (['0'], cs)
  | cs => scanDecimal cs

def scanFraction (cs : List Char) : Option (Option (List Char) × List Char) :=
  match cs with
  | '.' :: cs => (scanDecimal cs).map fun (digits, cs) => (some digits, cs)
  | cs => some (none, cs)

def scanExponent (cs : List Char) : Option (Option Int × List Char) :=
  match cs with
  | c :: rest =>
    if c = 'e' ∨ c = 'E' then
      let (negative, rest) := scanSign rest
      (scanDecimal rest).map fun (digits, rest) =>
        let size : Int := Nat.ofDigitChars 10 digits 0
        (some (if negative then -size else size), rest)
    else
      some (none, cs)
  | [] => some (none, [])

def scanNumber (cs : List Char) : Option (Scalar × List Char) := do
  let (negative, cs) := scanSign cs
  match cs with
  | 'i' :: 'n' :: 'f' :: cs => return (.real, cs)
  | 'n' :: 'a' :: 'n' :: cs => return (.real, cs)
  | cs =>
    let (whole, cs) ← scanWhole cs
    let (fraction, cs) ← scanFraction cs
    let (exponent, cs) ← scanExponent cs
    match fraction, exponent with
    | none, none =>
      let size : Int := Nat.ofDigitChars 10 whole 0
      let value := if negative then -size else size
      if fitsInt64 value then return (.int value, cs) else none
    | fraction, exponent =>
      let fraction := fraction.getD []
      if !negative && overflows (whole ++ fraction) (exponent.getD 0 - fraction.length) then none
      else return (.real, cs)

/-! ## Dates and times -/

def scanField (n low high : Nat) (cs : List Char) : Option (Nat × List Char) :=
  let digits := cs.take n
  let value := Nat.ofDigitChars 10 digits 0
  if digits.length = n ∧ digits.all Char.isDigit ∧ low ≤ value ∧ value ≤ high then
    some (value, cs.drop n)
  else
    none

def scanChar (c : Char) : List Char → Option (List Char)
  | d :: cs => if c = d then some cs else none
  | [] => none

def daysIn (year month : Nat) : Nat :=
  if month = 2 then
    if year % 4 = 0 ∧ (year % 100 ≠ 0 ∨ year % 400 = 0) then 29 else 28
  else if month = 4 ∨ month = 6 ∨ month = 9 ∨ month = 11 then 30
  else 31

def scanDateRest (year : Nat) (cs : List Char) : Option (List Char) := do
  let cs ← scanChar '-' cs
  let (month, cs) ← scanField 2 1 12 cs
  let cs ← scanChar '-' cs
  let (_, cs) ← scanField 2 1 (daysIn year month) cs
  return cs

def scanTimeRest (cs : List Char) : Option (List Char) := do
  let cs ← scanChar ':' cs
  let (_, cs) ← scanField 2 0 59 cs
  let cs ← scanChar ':' cs
  let (_, cs) ← scanField 2 0 60 cs
  match cs with
  | '.' :: rest =>
    if (rest.head?.map Char.isDigit).getD false then return rest.dropWhile Char.isDigit else return cs
  | cs => return cs

def skipOffset (cs : List Char) : Option (List Char) :=
  match cs with
  | c :: rest =>
    if c = 'Z' ∨ c = 'z' then some rest
    else if c = '+' ∨ c = '-' then do
      let (_, rest) ← scanField 2 0 23 rest
      let rest ← scanChar ':' rest
      let (_, rest) ← scanField 2 0 59 rest
      return rest
    else some cs
  | [] => some []

def skipTime (cs : List Char) : Option (List Char) :=
  match cs with
  | c :: rest =>
    if c = 'T' ∨ c = 't' ∨ c = ' ' then
      match scanField 2 0 23 rest with
      | some (_, ':' :: rest) => do
        let rest ← scanTimeRest (':' :: rest)
        skipOffset rest
      | _ => some cs
    else
      some cs
  | [] => some []

/-- Reads a date, a time or both. `none` means that the text starts like neither; what starts like one
and is not is `some none`. -/
def scanMoment (cs : List Char) : Option (Option (List Char)) :=
  match scanField 4 0 9999 cs with
  | some (year, '-' :: rest) => some ((scanDateRest year ('-' :: rest)).bind skipTime)
  | _ =>
    match scanField 2 0 23 cs with
    | some (_, ':' :: rest) => some (scanTimeRest (':' :: rest))
    | _ => none

def scanNumeric (cs : List Char) : Option (Scalar × List Char) :=
  match scanMoment cs with
  | some found => found.map fun cs => (.moment, cs)
  | none =>
    match cs with
    | '0' :: 'x' :: cs => scanBased 16 cs
    | '0' :: 'o' :: cs => scanBased 8 cs
    | '0' :: 'b' :: cs => scanBased 2 cs
    | cs => scanNumber cs

def scanScalar (cs : List Char) : Option (Scalar × List Char) :=
  match cs with
  | 't' :: 'r' :: 'u' :: 'e' :: cs => some (.bool true, cs)
  | 'f' :: 'a' :: 'l' :: 's' :: 'e' :: cs => some (.bool false, cs)
  | c :: _ =>
    if c = '"' ∨ c = '\'' then (scanString cs).map fun (text, cs) => (.string text, cs)
    else scanNumeric cs
  | [] => none

end WriteBehind.Toml
