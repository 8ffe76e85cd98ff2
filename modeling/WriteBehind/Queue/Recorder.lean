import WriteBehind.Queue.Schedule

/-!
# A recording store

A store that does nothing but end as it is told: at once, as each item says, or, when it is gated,
as somebody says later. It shows what a queue does with its entries.
-/

namespace WriteBehind.Queue

def breakdown (message : Option String) : StoreError :=
  .crashed (message.getD "non-string panic payload")

structure Parcel (α : Type) where
  payload : α
  outcome : Outcome := .ok ()

def recorder {α : Type} (gated : Bool) : Stores Unit String (Parcel α) where
  begin _ _ _ entry := (if gated then none else some entry.item.outcome, ())

abbrev Rehearsal (α : Type) := Scene Unit String (Parcel α)

namespace Rehearsal

variable {α : Type}

def start (config : QueueConfig) (connections : Nat) : Except Error (Rehearsal α) := do
  let pool ← Pool.ofConnections ((List.range connections).map fun id => { id })
  let queue ← State.start config pool
  return { queue, shared := () }

def issue (id : Nat) (e : Event String (Parcel α)) (r : Rehearsal α) : Rehearsal α :=
  (Scene.lookAt id (r.apply e)).2

def settle (gated : Bool) (r : Rehearsal α) : Rehearsal α :=
  Scene.settle (recorder gated) Scene.lookAt r

def finish? (key : String) (outcome : Outcome) (r : Rehearsal α) : Option (Rehearsal α) := do
  let w ← r.queue.storing? fun entry => entry.key == key
  return r.apply (.finish w outcome)

def forget (r : Rehearsal α) : Rehearsal α := { r with notices := [] }

end Rehearsal

end WriteBehind.Queue
