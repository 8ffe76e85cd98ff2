import WriteBehind.Atom.Catalog
import WriteBehind.Connection
import WriteBehind.Queue.State

/-!
# Backends

A backend persists and removes atoms. A write names its atom; the document is read when the request
is carried out, so it holds the values of that moment.
-/

namespace WriteBehind

inductive WriteKind where
  | store
  | remove
  deriving DecidableEq, Repr

def WriteKind.text : WriteKind → String
  | store => "store"
  | remove => "remove"

structure Write where
  atom : AtomId
  kind : WriteKind
  deriving DecidableEq, Repr

instance : Named AtomId := ⟨fun id => "AtomId(" ++ id.text ++ ")"⟩

/-- A backend with state `β`. A request is received, takes a while, and is then carried out. -/
structure Backend (β : Type) where
  connect : β → Except StoreError Connection × β
  prepare : β → Connection → Except StoreError Connection × β := fun s c => (.ok c, s)
  receive : β → Write → β := fun s _ => s
  latency : β → Nat := fun _ => 0
  carryOut : β → Catalog → Write → Queue.Outcome × β
  isHealthy : β → Bool := fun _ => true

def Backend.request {β : Type} (b : Backend β) (s : β) (catalog : Catalog) (w : Write)
    (c : Connection) : Queue.Outcome × Connection × β :=
  let (outcome, s) := b.carryOut (b.receive s w) catalog w
  (outcome, c.use, s)

end WriteBehind
