import WriteBehind.Queue.State

/-!
# Events of a queue

What can happen to a queue, what its calls return, and what can be noticed from outside.
-/

namespace WriteBehind.Queue

inductive Answer where
  | done
  | receipt (receipt : Receipt)
  | connection (connection : Connection)
  deriving DecidableEq, Repr

abbrev Result := Except Error Answer

def Answer.handed : Option Connection → Answer
  | some c => .connection c
  | none => .done

inductive Notice (κ ι : Type) where
  /-- The store of an entry begins, on a connection that counts it already. -/
  | invoked (worker : Nat) (entry : Claimed κ ι) (connection : Connection)
  | drained (entry : Claimed κ ι) (outcome : Outcome)
  | accepted (call : Nat) (receipt : Receipt)
  | lent (call : Nat) (connection : Connection)
  | returned (call : Nat) (result : Result)
  | closed
  | surrendered (connections : List Connection)

/-- Steps. Calls have numbers; a number is free again when its call has returned. -/
inductive Event (κ ι : Type) where
  /-- A write; with `fenced`, the call also waits until it has drained. -/
  | enqueue (call : Nat) (key : κ) (item : ι) (fenced : Bool)
  | tryEnqueue (call : Nat) (key : κ) (item : ι)
  | barrier (call : Nat)
  | close (call : Nat)
  | setWatermarks (call : Nat) (high low : Nat)
  | borrow (call : Nat)
  | request (call : Nat)
  | giveBack (call : Nat) (result : Except StoreError (Option Connection))
  | stall (on : Bool)
  | clear
  /-- The pool is closed under the queue. -/
  | closePool
  /-- The owner lets go of the queue without closing it. -/
  | abandon
  | pass (micros : Nat)
  | work (worker : Nat)
  | finish (worker : Nat) (outcome : Outcome)
  | look (call : Nat)
  /-- An abandoned queue closes. -/
  | expire

abbrev Effect (κ ι : Type) := State κ ι × List (Notice κ ι)

end WriteBehind.Queue
