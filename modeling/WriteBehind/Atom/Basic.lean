import WriteBehind.Atom.Id
import WriteBehind.Json.Value

/-!
# Atoms

An atom is a typed node or link of a hypergraph. Its identity, type, name and outgoing set never
change; its values do, also while a write of it is queued.
-/

namespace WriteBehind

structure Atom where
  id : AtomId
  type : String
  name : Option String := none
  outgoing : List AtomId := []
  values : List (String × Json.Value) := []

namespace Atom

def node (id : AtomId) (type name : String) : Atom := { id, type, name := some name }

def link (id : AtomId) (type : String) (outgoing : List AtomId) : Atom := { id, type, outgoing }

def isLink (a : Atom) : Bool := a.name.isNone

def set (a : Atom) (key : String) (value : Json.Value) : Atom :=
  { a with values := Json.Members.set key value a.values }

def get? (a : Atom) (key : String) : Option Json.Value := Json.Members.get? key a.values

end Atom

end WriteBehind
