import WriteBehind.Bench.Round
import WriteBehind.Session.Step

/-!
# Steps of a bench

What can happen to a bench between the opening of its session and its report. The producers of a round move
one at a time. When all of them are done the bench fences, and when the fence has returned the next round
begins. The queue and its workers move in between. Any interleaving of enabled steps is a run.
-/

namespace WriteBehind.Bench

open Session (Action Command World)

/-- What a producer has asked for, and in which round. -/
structure Order where
  round : Nat
  producer : Nat
  command : Command

/-- A bench in one of its rounds, with everything that was ordered so far and the rounds of the requests
that failed, one for each. -/
structure State where
  world : World
  counts : CallCounts := {}
  next : Nat := 0
  round : Nat := 0
  producers : List Producer
  fence : Option Nat := none
  results : List (Except Error Unit) := []
  orders : List Order := []
  failed : List Nat := []

inductive Tick where
  | produce (producer : Nat)
  | fence
  | proceed
  | stir (action : Action)

def fails (name : String → String) (w : World) : Action → Bool
  | .write worker =>
    match w.request? worker, w.drafts.get? worker with
    | some request, some draft => !(Memory.carryOut name w.store draft request).1.isOk
    | _, _ => false
  | _ => false

/-- The producers of a round. There are none behind the last one. -/
def crew (luck : Luck) (w : Workload) (round : Nat) : List Producer :=
  if round < w.rounds then producers luck w round else []

namespace State

def start (luck : Luck) (w : Workload) (d : Desk) : State where
  world := .ofSession d.session
  counts := d.session.counts
  next := d.next
  producers := crew luck w 0

def isWaiting (s : State) (call : Nat) : Bool := (s.world.queue.call? call).isSome

def isBusy (s : State) (p : Producer) : Bool := p.call.any s.isWaiting

def isDone (s : State) : Bool := s.producers.all fun p => p.todo.isEmpty && !s.isBusy p

def issue (name : String → String) (s : State) (c : Command) : Option State := do
  let world ← s.world.step name (.call s.next c)
  return { s with world, counts := c.count s.counts, next := s.next + 1 }

def move (name : String → String) (s : State) (k : Nat) (p : Producer) : Option State :=
  match p.todo with
  | [] => none
  | .set id value :: todo => do
    let world ← s.world.step name (.set id valueKey value)
    return { s with world, producers := s.producers.set k { todo } }
  | .call command :: todo => do
    let t ← s.issue name command
    return { t with
      producers := s.producers.set k { todo, call := some s.next }
      orders := s.orders ++ [{ round := s.round, producer := k, command }] }

def step (name : String → String) (luck : Luck) (w : Workload) (s : State) : Tick → Option State
  | .produce k => do
    let p ← s.producers[k]?
    if s.isBusy p then none else s.move name k p
  | .fence =>
    if s.round < w.rounds ∧ s.fence.isNone ∧ s.isDone then do
      let t ← s.issue name .barrier
      return { t with fence := some s.next }
    else none
  | .proceed => do
    let call ← s.fence
    if s.isWaiting call then none
    else
      return { s with
        round := s.round + 1
        producers := crew luck w (s.round + 1)
        fence := none
        results := s.results ++ [(returned? call s.world.notices).getD (.ok ())] }
  | .stir action =>
    if action.isStir then do
      let world ← s.world.step name action
      return { s with
        world
        failed := if fails name s.world action then s.failed ++ [s.round] else s.failed }
    else none

def run (name : String → String) (luck : Luck) (w : Workload) (s : State) (ticks : List Tick) :
    Option State :=
  ticks.foldlM (step name luck w) s

end State

end WriteBehind.Bench
