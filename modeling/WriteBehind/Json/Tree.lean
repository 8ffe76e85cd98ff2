import WriteBehind.Json.Number
import WriteBehind.Json.Text

/-!
# JSON texts

A `Tree` is a text as it is written, blanks apart: its numbers are numerals and its strings are
pieces. Whether a number is in range and whether the pieces form characters is asked only where a
value is wanted, so a part that nobody wants may hold anything well-formed.
-/

namespace WriteBehind.Json

inductive Tree where
  | null
  | bool (value : Bool)
  | number (numeral : Numeral)
  | string (pieces : List Piece)
  | array (elements : List Tree)
  | object (members : List (List Piece × Tree))

namespace Tree

def isBlank (c : Char) : Bool := c == ' ' || c == '\n' || c == '\t' || c == '\r'

def skipBlank (cs : List Char) : List Char := cs.dropWhile isBlank

def spanDigits (cs : List Char) : List Char × List Char :=
  (cs.takeWhile Char.isDigit, cs.dropWhile Char.isDigit)

def scanWhole (cs : List Char) : Option (List Char × List Char) :=
  match spanDigits cs with
  | ([], _) => none
  | ('0' :: _ :: _, _) => none
  | found => some found

def scanFraction : List Char → Option (List Char × List Char)
  | '.' :: cs =>
    match spanDigits cs with
    | ([], _) => none
    | found => some found
  | cs => some ([], cs)

def scanExponentDigits (negative : Bool) (cs : List Char) :
    Option (Option (Bool × List Char) × List Char) :=
  match spanDigits cs with
  | ([], _) => none
  | (digits, rest) => some (some (negative, digits), rest)

def scanExponent : List Char → Option (Option (Bool × List Char) × List Char)
  | c :: cs =>
    if c = 'e' ∨ c = 'E' then
      match cs with
      | '-' :: cs => scanExponentDigits true cs
      | '+' :: cs => scanExponentDigits false cs
      | cs => scanExponentDigits false cs
    else
      some (none, c :: cs)
  | [] => some (none, [])

def scanNumber (negative : Bool) (cs : List Char) : Option (Numeral × List Char) := do
  let (whole, cs) ← scanWhole cs
  let (fraction, cs) ← scanFraction cs
  let (exponent, cs) ← scanExponent cs
  return ({ negative, whole, fraction, exponent }, cs)

mutual

def scan : Nat → List Char → Option (Tree × List Char)
  | 0, _ => none
  | fuel + 1, cs =>
    match skipBlank cs with
    | 'n' :: 'u' :: 'l' :: 'l' :: rest => some (null, rest)
    | 't' :: 'r' :: 'u' :: 'e' :: rest => some (bool true, rest)
    | 'f' :: 'a' :: 'l' :: 's' :: 'e' :: rest => some (bool false, rest)
    | '"' :: rest => (scanString rest).map fun (pieces, rest) => (string pieces, rest)
    | '[' :: rest =>
      match skipBlank rest with
      | ']' :: rest => some (array [], rest)
      | rest => (scanElements fuel rest).map fun (elements, rest) => (array elements, rest)
    | '\x7b' :: rest =>
      match skipBlank rest with
      | '\x7d' :: rest => some (object [], rest)
      | rest => (scanMembers fuel rest).map fun (members, rest) => (object members, rest)
    | '-' :: rest => (scanNumber true rest).map fun (n, rest) => (number n, rest)
    | rest => (scanNumber false rest).map fun (n, rest) => (number n, rest)

def scanElements : Nat → List Char → Option (List Tree × List Char)
  | 0, _ => none
  | fuel + 1, cs =>
    match scan fuel cs with
    | none => none
    | some (element, cs) =>
      match skipBlank cs with
      | ',' :: cs => (scanElements fuel cs).map fun (elements, cs) => (element :: elements, cs)
      | ']' :: cs => some ([element], cs)
      | _ => none

def scanMembers : Nat → List Char → Option (List (List Piece × Tree) × List Char)
  | 0, _ => none
  | fuel + 1, cs =>
    match skipBlank cs with
    | '"' :: cs =>
      match scanString cs with
      | none => none
      | some (key, cs) =>
        match skipBlank cs with
        | ':' :: cs =>
          match scan fuel cs with
          | none => none
          | some (value, cs) =>
            match skipBlank cs with
            | ',' :: cs =>
              (scanMembers fuel cs).map fun (members, cs) => ((key, value) :: members, cs)
            | '\x7d' :: cs => some ([(key, value)], cs)
            | _ => none
        | _ => none
    | _ => none

end

/-- Reads a text that holds one value and, around it, only blanks. Every step of the reader takes a
character, so one more than their number is enough fuel. -/
def ofChars? (cs : List Char) : Option Tree :=
  match scan (cs.length + 1) cs with
  | some (tree, rest) => if (skipBlank rest).isEmpty then some tree else none
  | none => none

def ofString? (text : String) : Option Tree := ofChars? text.toList

end Tree

end WriteBehind.Json
