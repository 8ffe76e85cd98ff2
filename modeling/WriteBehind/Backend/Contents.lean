import Std.Data.TreeMap
import WriteBehind.Atom.Id

/-!
# Named documents

Documents are kept under their names, and an index tells which document is the current one of an
atom. A document that is replaced by one of another name is dropped.
-/

namespace WriteBehind

structure Contents where
  documents : Std.TreeMap String String := ∅
  index : Std.TreeMap AtomId String := ∅

namespace Contents

def name? (c : Contents) (id : AtomId) : Option String := c.index[id]?

def document? (c : Contents) (id : AtomId) : Option String :=
  (c.name? id).bind fun name => c.documents[name]?

def size (c : Contents) : Nat := c.documents.size

def put (c : Contents) (id : AtomId) (name document : String) : Contents :=
  let kept := match c.index[id]? with
    | some old => if old = name then c.documents else c.documents.erase old
    | none => c.documents
  { documents := kept.insert name document, index := c.index.insert id name }

def remove (c : Contents) (id : AtomId) : Contents :=
  match c.index[id]? with
  | some old => { documents := c.documents.erase old, index := c.index.erase id }
  | none => c

end Contents

end WriteBehind
