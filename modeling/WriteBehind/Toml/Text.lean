import WriteBehind.Json.Text

/-!
# TOML: blanks, strings and keys

Every scanner takes the text from its start and gives what it has read and what follows.
-/

namespace WriteBehind.Toml

open Json (hexValue?)

def isBlank (c : Char) : Bool := c == ' ' || c == '\t'

def skipBlank (cs : List Char) : List Char := cs.dropWhile isBlank

/-- Characters that may stand for themselves: a tab and everything but the control characters. -/
def isText (c : Char) : Bool := c == '\t' || (decide (' ' ≤ c) && c != '\x7f')

def newline? : List Char → Option (List Char)
  | '\n' :: rest => some rest
  | '\r' :: '\n' :: rest => some rest
  | _ => none

def lineEnd? : List Char → Option (List Char)
  | [] => some []
  | cs => newline? cs

def skipComment : List Char → List Char
  | '#' :: rest => rest.dropWhile isText
  | cs => cs

def statementEnd? (cs : List Char) : Option (List Char) := lineEnd? (skipComment (skipBlank cs))

def skipLines : Nat → List Char → List Char
  | 0, cs => cs
  | fuel + 1, cs =>
    let cs := skipBlank cs
    match newline? (skipComment cs) with
    | some rest => skipLines fuel rest
    | none => cs

/-! ## Strings -/

def scalar? (n : Nat) : Option Char := if n.isValidChar then some (Char.ofNat n) else none

def scanHex : Nat → Nat → List Char → Option (Nat × List Char)
  | 0, acc, cs => some (acc, cs)
  | n + 1, acc, c :: cs => (hexValue? c).bind fun d => scanHex n (acc * 16 + d) cs
  | _ + 1, _, [] => none

def scanEscape : List Char → Option (Char × List Char)
  | 'b' :: cs => some ('\x08', cs)
  | 't' :: cs => some ('\t', cs)
  | 'n' :: cs => some ('\n', cs)
  | 'f' :: cs => some ('\x0c', cs)
  | 'r' :: cs => some ('\r', cs)
  | '"' :: cs => some ('"', cs)
  | '\\' :: cs => some ('\\', cs)
  | 'u' :: cs => (scanHex 4 0 cs).bind fun (n, cs) => (scalar? n).map (·, cs)
  | 'U' :: cs => (scanHex 8 0 cs).bind fun (n, cs) => (scalar? n).map (·, cs)
  | _ => none

def scanBasic : Nat → List Char → Option (List Char × List Char)
  | 0, _ => none
  | fuel + 1, cs =>
    match cs with
    | '"' :: cs => some ([], cs)
    | '\\' :: cs => do
      let (c, cs) ← scanEscape cs
      let (found, cs) ← scanBasic fuel cs
      return (c :: found, cs)
    | c :: cs =>
      if isText c then (scanBasic fuel cs).map fun (found, cs) => (c :: found, cs) else none
    | [] => none

def scanLiteral (cs : List Char) : Option (List Char × List Char) :=
  let plain (c : Char) : Bool := isText c && c != '\''
  match cs.dropWhile plain with
  | '\'' :: rest => some (cs.takeWhile plain, rest)
  | _ => none

def skipBreaks : List Char → List Char
  | ' ' :: cs => skipBreaks cs
  | '\t' :: cs => skipBreaks cs
  | '\n' :: cs => skipBreaks cs
  | '\r' :: '\n' :: cs => skipBreaks cs
  | cs => cs

/-- Reads a string of several lines after its opening quotes and first line break. `quote` is the
quote that, three times, ends it; up to two more may stand before these. Escapes are read only if
`escapes` is set; an escaped line break is dropped with all blanks and line breaks after it. -/
def scanLines (quote : Char) (escapes : Bool) : Nat → List Char → Option (List Char × List Char)
  | 0, _ => none
  | fuel + 1, cs =>
    let more (c : Char) (cs : List Char) : Option (List Char × List Char) :=
      (scanLines quote escapes fuel cs).map fun (found, cs) => (c :: found, cs)
    match newline? cs with
    | some rest => more '\n' rest
    | none =>
      match cs with
      | [] => none
      | c :: rest =>
        if c = quote then
          let run := (cs.takeWhile (· == quote)).length
          if run < 3 then more quote rest
          else if run ≤ 5 then some (List.replicate (run - 3) quote, cs.drop run)
          else none
        else if c = '\\' && escapes then
          match newline? (skipBlank rest) with
          | some rest => scanLines quote escapes fuel (skipBreaks rest)
          | none => (scanEscape rest).bind fun (c, rest) => more c rest
        else if isText c then more c rest
        else none

def dropNewline (cs : List Char) : List Char := (newline? cs).getD cs

def scanString (cs : List Char) : Option (String × List Char) :=
  let found := match cs with
    | '"' :: '"' :: '"' :: cs => scanLines '"' true (cs.length + 1) (dropNewline cs)
    | '\'' :: '\'' :: '\'' :: cs => scanLines '\'' false (cs.length + 1) (dropNewline cs)
    | '"' :: cs => scanBasic (cs.length + 1) cs
    | '\'' :: cs => scanLiteral cs
    | _ => none
  found.map fun (text, cs) => (String.ofList text, cs)

/-! ## Keys -/

def isBare (c : Char) : Bool := c.isAlphanum || c == '_' || c == '-'

def scanKeyPart (cs : List Char) : Option (String × List Char) :=
  match cs with
  | '"' :: cs => (scanBasic (cs.length + 1) cs).map fun (text, cs) => (String.ofList text, cs)
  | '\'' :: cs => (scanLiteral cs).map fun (text, cs) => (String.ofList text, cs)
  | cs =>
    match cs.takeWhile isBare with
    | [] => none
    | bare => some (String.ofList bare, cs.dropWhile isBare)

/-- The most parts a key may have, and the most brackets that may be open at once, plus one. -/
def depthLimit : Nat := 80

def scanKeyParts : Nat → List Char → Option (List String × List Char)
  | 0, _ => none
  | fuel + 1, cs => do
    let (part, cs) ← scanKeyPart (skipBlank cs)
    match skipBlank cs with
    | '.' :: cs => do
      let (parts, cs) ← scanKeyParts fuel cs
      return (part :: parts, cs)
    | cs => return ([part], cs)

def scanKey (cs : List Char) : Option (List String × String × List Char) := do
  let (parts, cs) ← scanKeyParts (depthLimit - 1) cs
  let last ← parts.getLast?
  return (parts.dropLast, last, cs)

end WriteBehind.Toml
