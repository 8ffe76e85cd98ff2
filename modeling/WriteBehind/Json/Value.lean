import WriteBehind.Json.Tree

/-!
# JSON values

The members of an object are kept in increasing order of their keys, each key once, so that a value
has one form and one compact encoding. The order of strings by characters is also their order by
UTF-8 bytes.
-/

namespace WriteBehind.Json

inductive Value where
  | null
  | bool (value : Bool)
  | number (value : Number)
  | string (value : String)
  | array (elements : List Value)
  | object (members : List (String × Value))

namespace Members

variable {α : Type}

def set (key : String) (value : α) : List (String × α) → List (String × α)
  | [] => [(key, value)]
  | (k, v) :: rest =>
    if key < k then (key, value) :: (k, v) :: rest
    else if key = k then (key, value) :: rest
    else (k, v) :: set key value rest

def get? (key : String) (members : List (String × α)) : Option α :=
  (members.find? fun m => decide (m.1 = key)).map (·.2)

def Ordered (members : List (String × α)) : Prop := (members.map (·.1)).Pairwise (· < ·)

end Members

namespace Value

mutual

def encode : Value → List Char
  | null => "null".toList
  | bool true => "true".toList
  | bool false => "false".toList
  | number n => n.text.toList
  | string s => quote s
  | array elements => '[' :: (encodeElements elements ++ [']'])
  | object members => '\x7b' :: (encodeMembers members ++ ['\x7d'])

def encodeElements : List Value → List Char
  | [] => []
  | [v] => v.encode
  | v :: rest => v.encode ++ ',' :: encodeElements rest

def encodeMembers : List (String × Value) → List Char
  | [] => []
  | [(k, v)] => quote k ++ ':' :: v.encode
  | (k, v) :: rest => quote k ++ ':' :: (v.encode ++ ',' :: encodeMembers rest)

end

def text (v : Value) : String := String.ofList v.encode

mutual

def nesting : Value → Nat
  | null | bool _ | number _ | string _ => 0
  | array elements => nestingElements elements + 1
  | object members => nestingMembers members + 1

def nestingElements : List Value → Nat
  | [] => 0
  | v :: rest => max v.nesting (nestingElements rest)

def nestingMembers : List (String × Value) → Nat
  | [] => 0
  | (_, v) :: rest => max v.nesting (nestingMembers rest)

end

mutual

/-- The value of a text, if at most `budget` brackets are open at once, its numbers are in range and
its strings are made of characters. Of a repeated key the last value counts. -/
def ofTree? (budget : Nat) : Tree → Option Value
  | .null => some null
  | .bool b => some (bool b)
  | .number n => n.value?.map number
  | .string s => (Piece.string? s).map string
  | .array elements =>
    match budget with
    | 0 => none
    | budget + 1 => (ofElements? budget elements).map array
  | .object members =>
    match budget with
    | 0 => none
    | budget + 1 => (ofMembers? budget [] members).map object

def ofElements? (budget : Nat) : List Tree → Option (List Value)
  | [] => some []
  | t :: rest => do
    let v ← ofTree? budget t
    let rest ← ofElements? budget rest
    return v :: rest

def ofMembers? (budget : Nat) (found : List (String × Value)) :
    List (List Piece × Tree) → Option (List (String × Value))
  | [] => some found
  | (key, t) :: rest => do
    let key ← Piece.string? key
    let v ← ofTree? budget t
    ofMembers? budget (Members.set key v found) rest

end

def maxNesting : Nat := 127

def ofString? (text : String) : Option Value := do
  let tree ← Tree.ofString? text
  ofTree? maxNesting tree

end Value

end WriteBehind.Json
