import WriteBehind.EntryState
import WriteBehind.Sequence
import WriteBehind.Table

/-!
# The coalescing buffer

The buffer holds the entries that were accepted and have not drained. It decides whether a write is
folded into a pending entry, which entry is claimed next, and whether everything up to a sequence
number has drained. An identity has at most one pending entry and at most one in flight; a pending
entry whose identity is in flight is passed over by claims.
-/

namespace WriteBehind

structure Pending (ι : Type) where
  sequence : Sequence
  item : ι
  replaced : Nat := 0
  deriving DecidableEq, Repr

structure Claimed (κ ι : Type) where
  key : κ
  sequence : Sequence
  item : ι
  replaced : Nat
  deriving DecidableEq, Repr

inductive Inserted where
  | new (sequence : Sequence)
  | coalesced (sequence : Sequence)
  deriving DecidableEq, Repr

namespace Inserted

def sequence : Inserted → Sequence
  | new s | coalesced s => s

def isCoalesced : Inserted → Bool
  | new _ => false
  | coalesced _ => true

end Inserted

structure Buffer (κ ι : Type) where
  pending : Table κ (Pending ι) := {}
  /-- The pending entries, oldest first. -/
  order : List (Sequence × κ) := []
  inFlight : Table κ Sequence := {}
  /-- The sequence numbers of entries that have not drained, in increasing order. -/
  outstanding : List Sequence := []
  last : Sequence := .zero
  deriving DecidableEq

def takeFirst {α : Type} (p : α → Bool) : List α → Option (α × List α)
  | [] => none
  | a :: rest => if p a then some (a, rest) else (takeFirst p rest).map fun (x, rest) => (x, a :: rest)

namespace Buffer

variable {κ ι : Type} [DecidableEq κ]

/-- Adds a payload. If the identity has a pending entry, the payload replaces that of the entry, which
keeps its place; else a new entry comes last. -/
def insert (b : Buffer κ ι) (key : κ) (item : ι) : Inserted × Buffer κ ι :=
  match b.pending.get? key with
  | some entry =>
    (.coalesced entry.sequence,
      { b with pending := b.pending.set key { entry with item, replaced := entry.replaced + 1 } })
  | none =>
    let sequence := b.last.next
    (.new sequence,
      { b with
        pending := b.pending.set key { sequence, item }
        order := b.order ++ [(sequence, key)]
        outstanding := b.outstanding ++ [sequence]
        last := sequence })

def claim (b : Buffer κ ι) : Option (Claimed κ ι) × Buffer κ ι :=
  match takeFirst (fun e => !b.inFlight.contains e.2) b.order with
  | none => (none, b)
  | some ((sequence, key), order) =>
    match b.pending.get? key with
    | none => (none, { b with order })
    | some entry =>
      (some { key, sequence, item := entry.item, replaced := entry.replaced },
        { b with
          pending := b.pending.erase key
          order
          inFlight := b.inFlight.set key sequence })

/-- Retires an entry that was in flight. The answer is whether another payload of the identity is
pending, which can be claimed now. -/
def complete (b : Buffer κ ι) (key : κ) (sequence : Sequence) : Bool × Buffer κ ι :=
  (b.pending.contains key,
    { b with
      inFlight := if b.inFlight.get? key = some sequence then b.inFlight.erase key else b.inFlight
      outstanding := b.outstanding.filter fun s => decide (s ≠ sequence) })

def isPending (b : Buffer κ ι) (key : κ) : Bool := b.pending.contains key

def state? (b : Buffer κ ι) (key : κ) : Option EntryState :=
  match b.inFlight.contains key, b.pending.contains key with
  | true, true => some .inFlightWithPending
  | true, false => some .inFlight
  | false, true => some .pending
  | false, false => none

omit [DecidableEq κ] in
def depth (b : Buffer κ ι) : Nat := b.outstanding.length

omit [DecidableEq κ] in
def oldest? (b : Buffer κ ι) : Option Sequence := b.outstanding.head?

omit [DecidableEq κ] in
def isDrainedThrough (b : Buffer κ ι) (target : Sequence) : Bool :=
  match b.oldest? with
  | none => true
  | some oldest => decide (target < oldest)

end Buffer

end WriteBehind
