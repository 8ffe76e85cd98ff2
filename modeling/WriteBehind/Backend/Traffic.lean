import WriteBehind.Session.Step

/-!
# Traffic at a memory backend

What can happen to a memory backend whose clients have connections to it and know the atoms. A request is
received over a connection, which is busy until the request has been carried out; the atoms are read for it in
between. Meanwhile other connections carry requests, values of the atoms are set, and the backend is told to
fail or to work again. Any interleaving of enabled steps is a run.
-/

namespace WriteBehind.Memory

structure Line where
  connection : Connection
  request : Option Write := none
  draft : Option Catalog := none

structure Success where
  atom : AtomId
  document : Option String

def success? (draft : Catalog) (request : Write) : Queue.Outcome → Option Success
  | .ok () => some ⟨request.atom, match request.kind with
    | .store => (draft.get? request.atom).map Atom.document
    | .remove => none⟩
  | .error _ => none

structure Traffic where
  backend : Memory := {}
  catalog : Catalog := {}
  lines : List Line := []
  done : List Success := []

inductive Deed where
  | create (atom : Atom)
  | set (id : AtomId) (key : String) (value : Json.Value)
  | adjust (control : Session.Control)
  | connect
  | receive (line : Nat) (request : Write)
  | read (line : Nat)
  | carryOut (line : Nat)

def exchange (line : Nat) (request : Write) : List Deed := [.receive line request, .read line, .carryOut line]

namespace Traffic

def step (name : String → String) (t : Traffic) : Deed → Option Traffic
  | .create atom =>
    if (t.catalog.get? atom.id).isSome then none else some { t with catalog := t.catalog.insert atom }
  | .set id key value => some { t with catalog := t.catalog.setValue id key value }
  | .adjust control => some { t with backend := control.apply t.backend }
  | .connect =>
    match t.backend.connect with
    | (.ok connection, backend) => some { t with backend, lines := t.lines ++ [{ connection }] }
    | (.error _, _) => none
  | .receive n request => do
    let line ← t.lines[n]?
    if line.request.isSome then none
    else
      some { t with
        backend := t.backend.receive request
        lines := t.lines.set n { connection := line.connection.use, request } }
  | .read n => do
    let line ← t.lines[n]?
    let request ← line.request
    return { t with lines := t.lines.set n { line with request, draft := t.catalog } }
  | .carryOut n => do
    let line ← t.lines[n]?
    let request ← line.request
    let draft ← line.draft
    let (outcome, backend) := Memory.carryOut name t.backend draft request
    return { t with
      backend
      lines := t.lines.set n { connection := line.connection }
      done := t.done ++ (success? draft request outcome).toList }

def run (name : String → String) (t : Traffic) (deeds : List Deed) : Option Traffic :=
  deeds.foldlM (step name) t

end Traffic

end WriteBehind.Memory
