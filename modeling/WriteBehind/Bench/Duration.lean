/-!
# Durations

A duration is written in the largest unit of which it has at least one, with as many decimals as it
needs.
-/

namespace WriteBehind.Bench

def fractionDigits (places n : Nat) : List Char :=
  let digits := Nat.toDigits 10 n
  let padded := List.replicate (places - digits.length) '0' ++ digits
  (padded.reverse.dropWhile (· == '0')).reverse

def unitsText (places parts : Nat) (unit : String) : String :=
  let fraction := if parts % Nat.pow 10 places = 0 then [] else fractionDigits places (parts % Nat.pow 10 places)
  toString (parts / Nat.pow 10 places) ++
    (if fraction.isEmpty then "" else "." ++ String.ofList fraction) ++ unit

def durationText (nanos : Nat) : String :=
  if 1000000000 ≤ nanos then unitsText 9 nanos "s"
  else if 1000000 ≤ nanos then unitsText 6 nanos "ms"
  else if 1000 ≤ nanos then unitsText 3 nanos "µs"
  else unitsText 0 nanos "ns"

end WriteBehind.Bench
