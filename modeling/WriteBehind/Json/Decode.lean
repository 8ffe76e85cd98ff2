import WriteBehind.Json.Value
import WriteBehind.Record

/-!
# JSON as a data format for records

Numbers and strings are checked where they are looked at, so an unknown field may hold any value that
is well-formed.
-/

namespace WriteBehind.Json

/-- The shape of a part of a JSON text. The keys of an object that is read as a record have to be
made of characters, as its known fields are found by them. -/
def shape? : Tree → Option (Shape Tree)
  | .null => some .null
  | .bool b => some (.bool b)
  | .number n => n.value?.map fun
    | .int value => .int value
    | .real _ => .real
  | .string s => (Piece.string? s).map .text
  | .array elements => some (.list elements)
  | .object members => do
    let fields ← members.mapM fun (key, value) => do
      let key ← Piece.string? key
      return (key, value)
    return .table fields

def format : Format Tree := { shape?, surplus := false }

def decode? {β : Type} (decode : Tree → Option β) (text : String) : Option β := do
  let tree ← Tree.ofString? text
  decode tree

end WriteBehind.Json
