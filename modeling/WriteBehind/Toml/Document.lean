import WriteBehind.Toml.Value

/-!
# TOML documents

A document is a list of lines: blank ones and comments, headers that open a table, and fields of the
table that was opened last. The root table is open at the start.
-/

namespace WriteBehind.Toml

mutual

def scanValue : Nat → Nat → List Char → Option (Value × List Char)
  | 0, _, _ => none
  | fuel + 1, depth, cs =>
    match cs with
    | '[' :: rest =>
      match depth with
      | 0 => none
      | depth + 1 =>
        (scanElements fuel depth (skipLines fuel rest)).map fun (vs, rest) => (.array vs, rest)
    | '\x7b' :: rest =>
      match depth with
      | 0 => none
      | depth + 1 =>
        match skipBlank rest with
        | '\x7d' :: rest => some (.table .inline [], rest)
        | rest => (scanFields fuel depth [] rest).map fun (t, rest) => (.table .inline t, rest)
    | cs => (scanScalar cs).map fun (s, rest) => (.scalar s, rest)

/-- Reads the elements of an array up to its closing bracket. A comma may stand after the last. -/
def scanElements : Nat → Nat → List Char → Option (List Value × List Char)
  | 0, _, _ => none
  | fuel + 1, depth, cs =>
    match cs with
    | ']' :: rest => some ([], rest)
    | cs => do
      let (value, rest) ← scanValue fuel depth cs
      match skipLines fuel rest with
      | ',' :: rest => do
        let (values, rest) ← scanElements fuel depth (skipLines fuel rest)
        return (value :: values, rest)
      | ']' :: rest => return ([value], rest)
      | _ => none

def scanFields : Nat → Nat → Table → List Char → Option (Table × List Char)
  | 0, _, _, _ => none
  | fuel + 1, depth, found, cs => do
    let (path, key, cs) ← scanKey cs
    let cs ← scanChar '=' cs
    let (value, cs) ← scanValue fuel depth (skipBlank cs)
    let found ← found.assign? path key value
    match skipBlank cs with
    | ',' :: cs => scanFields fuel depth found cs
    | '\x7d' :: cs => return (found, cs)
    | _ => none

end

structure Draft where
  root : Table := []
  opened : List String := []

def scanHeader (d : Draft) (cs : List Char) : Option (Draft × List Char) := do
  let (path, key, cs) ← scanKey cs
  let cs ← scanChar ']' cs
  let cs ← statementEnd? cs
  let root ← d.root.openTable? path key
  return ({ root, opened := path ++ [key] }, cs)

def scanElementHeader (d : Draft) (cs : List Char) : Option (Draft × List Char) := do
  let (path, key, cs) ← scanKey cs
  let cs ← scanChar ']' cs
  let cs ← scanChar ']' cs
  let cs ← statementEnd? cs
  let root ← d.root.openElement? path key
  return ({ root, opened := path ++ [key] }, cs)

def scanAssignment (d : Draft) (cs : List Char) : Option (Draft × List Char) := do
  let (path, key, cs) ← scanKey cs
  let cs ← scanChar '=' cs
  let (value, cs) ← scanValue (cs.length + 1) (depthLimit - 1) (skipBlank cs)
  let cs ← statementEnd? cs
  let root ← d.root.assignBelow? d.opened path key value
  return ({ d with root }, cs)

def scanDocument : Nat → Draft → List Char → Option Draft
  | 0, _, _ => none
  | fuel + 1, d, cs =>
    match skipBlank cs with
    | [] => some d
    | '#' :: rest => (lineEnd? (skipComment ('#' :: rest))).bind (scanDocument fuel d)
    | '[' :: '[' :: rest => do
      let (d, rest) ← scanElementHeader d rest
      scanDocument fuel d rest
    | '[' :: rest => do
      let (d, rest) ← scanHeader d rest
      scanDocument fuel d rest
    | c :: rest =>
      match newline? (c :: rest) with
      | some rest => scanDocument fuel d rest
      | none => do
        let (d, rest) ← scanAssignment d (c :: rest)
        scanDocument fuel d rest

/-- Reads a document. A byte order mark at its start is skipped; every line takes a character, so one
more than their number is enough fuel. -/
def ofString? (text : String) : Option Value :=
  let cs := match text.toList with
    | '\ufeff' :: cs => cs
    | cs => cs
  (scanDocument (cs.length + 1) {} cs).map fun d => .table .header d.root

def decode? {β : Type} (decode : Value → Option β) (text : String) : Option β := do
  let value ← ofString? text
  decode value

end WriteBehind.Toml
