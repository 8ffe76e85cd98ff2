import WriteBehind.Backend.Memory
import WriteBehind.Session.Basic

/-!
# Steps of a session

What can happen to a session over the memory backend whose callers write through its queue only. Atoms
are made, values are set, writes and fences are issued, and the queue moves. A store reads its atom at one
moment and reaches the contents at a later one. Any interleaving of enabled steps is a run.
-/

namespace WriteBehind.Session

open Queue (Notice)

inductive Control where
  | fail (atom : AtomId)
  | heal (atom : AtomId)
  | failEvery (requests : Nat)
  | latency (millis : Option Nat)
  | healthy (on : Bool)

def Control.apply (m : Memory) : Control → Memory
  | fail atom => m.fail atom
  | heal atom => m.heal atom
  | failEvery requests => { m with failEvery := requests }
  | latency millis => { m with latency := millis }
  | healthy on => { m with healthy := on }

inductive Action where
  | node (id : AtomId) (type name : String)
  | link (id : AtomId) (type : String) (outgoing : List AtomId)
  | set (id : AtomId) (key : String) (value : Json.Value)
  | adjust (control : Control)
  | call (id : Nat) (command : Command)
  | queue (event : Queue.Event AtomId Write)
  | read (worker : Nat)
  | write (worker : Nat)

def Action.isStir : Action → Bool
  | queue (.work _) | queue (.look _) | queue (.pass _) | queue .expire | read _ | write _ => true
  | _ => false

def Command.atom? : Command → Option AtomId
  | store atom | storeValue atom _ | remove atom | storeAndWait atom => some atom
  | _ => none

structure World where
  queue : Queue.State AtomId Write
  store : Memory
  catalog : Catalog := {}
  /-- What the workers have read that carry out a request. -/
  drafts : Table Nat Catalog := {}
  notices : List (Notice AtomId Write) := []

namespace World

def ofStage (r : Stage Memory) : World where
  queue := r.queue
  store := r.shared.store
  catalog := r.shared.catalog
  notices := r.notices

def ofSession (s : Session Memory) : World := ofStage s.stage

def request? (w : World) (worker : Nat) : Option Write :=
  match w.queue.workers[worker]? with
  | some (.storing drain _) => some drain.entry.item
  | _ => none

def move (w : World) (e : Queue.Event AtomId Write) : Option World := do
  let (queue, out) ← Queue.step w.queue e
  let store := match Queue.Scene.invoked? out with
    | some entry => w.store.receive entry.item
    | none => w.store
  return { w with queue, store, notices := w.notices ++ out }

def create (w : World) (a : Atom) : Option World :=
  if (w.catalog.get? a.id).isSome then none else some { w with catalog := w.catalog.insert a }

/-- The atom of a command is known, and nothing is written past the queue. -/
def allows (w : World) (c : Command) : Bool :=
  c.foreground?.isNone && c.atom?.all fun id => (w.catalog.get? id).isSome

def isPlain : Queue.Event AtomId Write → Bool
  | .enqueue .. | .tryEnqueue .. | .barrier _ | .close _ | .setWatermarks .. | .finish .. => false
  | _ => true

def step (name : String → String) (w : World) : Action → Option World
  | .node id type nodeName => w.create (.node id type nodeName)
  | .link id type outgoing => w.create (.link id type outgoing)
  | .set id key value =>
    if (w.catalog.get? id).isSome then some { w with catalog := w.catalog.setValue id key value } else none
  | .adjust control => some { w with store := control.apply w.store }
  | .call id command => if w.allows command then w.move (command.event id) else none
  | .queue event => if isPlain event then w.move event else none
  | .read worker => do
    let _ ← w.request? worker
    return { w with drafts := w.drafts.set worker w.catalog }
  | .write worker => do
    let request ← w.request? worker
    let draft ← w.drafts.get? worker
    let (outcome, store) := Memory.carryOut name w.store draft request
    { w with store, drafts := w.drafts.erase worker }.move (.finish worker outcome)

def run (name : String → String) (w : World) (actions : List Action) : Option World :=
  actions.foldlM (step name) w

end World

end WriteBehind.Session
