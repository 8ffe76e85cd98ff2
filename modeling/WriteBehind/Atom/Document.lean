import WriteBehind.Atom.Basic
import WriteBehind.Coding
import WriteBehind.Digest.ContentId

/-!
# Atom documents

The document of an atom holds its identity and type, then its name, outgoing set and values as far as
it has any, in compact JSON. It is named by its content id.
-/

namespace WriteBehind

open Json (Value)

namespace AtomId

def toJson (id : AtomId) : Value := .string id.text

def decode? {α : Type} (f : Format α) (part : α) : Option AtomId := (f.text? part).bind ofString?

end AtomId

namespace Atom

def toJson (a : Atom) : Value :=
  .object ([("id", a.id.toJson), ("type", .string a.type)] ++
    (match a.name with
      | some name => [("name", .string name)]
      | none => []) ++
    (if a.outgoing.isEmpty then [] else [("outgoing", .array (a.outgoing.map AtomId.toJson))]) ++
    (if a.values.isEmpty then [] else [("values", .object a.values)]))

def document (a : Atom) : String := a.toJson.text

def documentId (a : Atom) : String := contentId a.document.toUTF8

def decodeValues? (part : Json.Tree) : Option (List (String × Value)) :=
  match Value.ofTree? (Value.maxNesting - 1) part with
  | some (.object members) => some members
  | _ => none

def decode? (part : Json.Tree) : Option Atom := do
  let f := Json.format
  match ← f.fields? ["id", "type", "name", "outgoing", "values"] part with
  | [some id, some type, name, outgoing, values] =>
    return {
      id := ← AtomId.decode? f id
      type := ← f.text? type
      name := ← Format.orDefault none (f.nullable? f.text?) name
      outgoing := ← Format.orDefault [] (f.list? (AtomId.decode? f)) outgoing
      values := ← Format.orDefault [] decodeValues? values }
  | _ => none

def ofDocument? (text : String) : Option Atom := Json.decode? decode? text

end Atom

end WriteBehind
