import WriteBehind.Backend.Memory
import WriteBehind.Bench.Settings
import WriteBehind.Session.Basic

/-!
# Rounds of writes

In a round every atom gets a new value and is stored, by one of several producers; by chance the value
is stored on its own first. Producers take turns, one move each, and everything behind the queue runs
in between. Time passes when no producer can move.
-/

namespace WriteBehind.Bench

structure Luck where
  id : Nat → AtomId
  strength : (round atom : Nat) → Float
  valueFirst : (round atom : Nat) → Bool

def valueKey : String := "tv"

inductive Move where
  | set (atom : AtomId) (value : Json.Value)
  | call (command : Session.Command)

def Luck.value (luck : Luck) (round i : Nat) : Json.Value :=
  .array [.number (.real (luck.strength round i)), .number (.int round)]

def Luck.moves (luck : Luck) (round i : Nat) : List Move :=
  let id := luck.id i
  .set id (luck.value round i) ::
    ((if luck.valueFirst round i then [.call (.storeValue id valueKey)] else []) ++
      [.call (.store id)])

structure Producer where
  todo : List Move
  call : Option Nat := none

def producers (luck : Luck) (w : Workload) (round : Nat) : List Producer :=
  (List.range w.producers).map fun p =>
    { todo := ((List.range w.atoms).filter fun i => decide (i % w.producers = p)).flatMap
        (luck.moves round) }

structure Desk where
  session : Session Memory
  next : Nat := 0

namespace Desk

def issue (d : Desk) (c : Session.Command) : Desk where
  session := (d.session.forget.issue Memory.backend d.next c).settle Memory.backend
  next := d.next + 1

def pass (d : Desk) : Desk :=
  let now := d.session.queue.now
  match (d.session.stage.shared.running.map (·.deadline)).min? with
  | some deadline =>
    { d with session :=
        (d.session.pass Memory.backend ((deadline - now) / 1000)).settle Memory.backend }
  | none => d

def isWaiting (d : Desk) (call : Nat) : Bool := (d.session.queue.call? call).isSome

end Desk

def Producer.move (p : Producer) (d : Desk) : Bool × Producer × Desk :=
  if p.call.any d.isWaiting then (false, p, d)
  else
    match p.todo with
    | [] => (false, p, d)
    | .set id value :: todo =>
      (true, { todo },
        { d with session := d.session.mapCatalog fun c => c.setValue id valueKey value })
    | .call c :: todo => (true, { todo, call := some d.next }, d.issue c)

def turn : List Producer → Desk → Bool × List Producer × Desk
  | [], d => (false, [], d)
  | p :: ps, d =>
    let (moved, p, d) := p.move d
    let (later, ps, d) := turn ps d
    (moved || later, p :: ps, d)

def turns : Nat → List Producer → Desk → Desk
  | 0, _, d => d
  | n + 1, ps, d =>
    match turn ps d with
    | (true, ps, d) => turns n ps d
    | (false, ps, d) =>
      if ps.all fun p => p.todo.isEmpty && !p.call.any d.isWaiting then d else turns n ps d.pass

def await (call : Nat) : Nat → Desk → Desk
  | 0, d => d
  | n + 1, d => if d.isWaiting call then await call n d.pass else d

def returned? (call : Nat) (notices : List (Queue.Notice AtomId Write)) : Option (Except Error Unit) :=
  notices.findSome? fun n => match n with
    | .returned id r => if id = call then some (r.map fun _ => ()) else none
    | _ => none

def Desk.result (d : Desk) (call : Nat) : Except Error Unit :=
  (returned? call d.session.stage.notices).getD (.ok ())

def Desk.complete (d : Desk) (c : Session.Command) : Except Error Unit × Desk :=
  let e := d.issue c
  let e := await d.next (e.session.queue.depth + 1) e
  (e.result d.next, e)

/-- One round, up to the fence at its end. There is a turn for every move, and time passes for every
entry at most. -/
def Desk.round (d : Desk) (luck : Luck) (w : Workload) (round : Nat) : Except Error Unit × Desk :=
  let ps := producers luck w round
  let moves := ps.foldr (fun p n => p.todo.length + n) 0
  (turns (2 * moves + 2) ps d).complete .barrier

end WriteBehind.Bench
