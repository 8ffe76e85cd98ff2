import Std.Data.TreeMap
import WriteBehind.Atom.Document

/-!
# Catalogs of atoms

A catalog holds the current form of each atom. Whoever knows an identity sees the values set last,
also a worker that encodes an atom long after a write of it was accepted.
-/

namespace WriteBehind

structure Catalog where
  atoms : Std.TreeMap AtomId Atom := ∅

namespace Catalog

instance : Inhabited Catalog := ⟨{}⟩

def get? (c : Catalog) (id : AtomId) : Option Atom := c.atoms[id]?

def insert (c : Catalog) (a : Atom) : Catalog := { c with atoms := c.atoms.insert a.id a }

def value? (c : Catalog) (id : AtomId) (key : String) : Option Json.Value :=
  (c.get? id).bind fun a => a.get? key

def setValue (c : Catalog) (id : AtomId) (key : String) (value : Json.Value) : Catalog :=
  match c.get? id with
  | some a => c.insert (a.set key value)
  | none => c

end Catalog

end WriteBehind
