import Std.Data.TreeMap
import WriteBehind.Backend.Basic
import WriteBehind.Backend.Contents

/-!
# The memory backend

A backend that keeps its documents in memory under names computed from their text. It records what it
was asked for and can be told to fail or to take its time.
-/

namespace WriteBehind

structure Memory where
  contents : Contents := {}
  latency : Option Nat := none
  failing : List AtomId := []
  /-- Every so many requests one fails; none if it is 0. -/
  failEvery : Nat := 0
  requests : Nat := 0
  calls : Std.TreeMap AtomId Nat := ∅
  /-- Requests, the one that was received last first. -/
  received : List Write := []
  opened : Nat := 0
  prepared : Bool := false
  healthy : Bool := true

namespace Memory

instance : Inhabited Memory := ⟨{}⟩

def fail (m : Memory) (id : AtomId) : Memory := { m with failing := id :: m.failing }

def heal (m : Memory) (id : AtomId) : Memory :=
  { m with failing := m.failing.filter fun f => decide (f ≠ id) }

def callsOf (m : Memory) (id : AtomId) : Nat := m.calls[id]?.getD 0

def log (m : Memory) : List Write := m.received.reverse

def connect (m : Memory) : Except StoreError Connection × Memory :=
  (.ok { id := m.opened }, { m with opened := m.opened + 1 })

def prepare (m : Memory) (c : Connection) : Except StoreError Connection × Memory :=
  (.ok c.use, { m with prepared := true })

def receive (m : Memory) (w : Write) : Memory :=
  { m with calls := m.calls.insert w.atom (m.callsOf w.atom + 1), received := w :: m.received }

def failure? (m : Memory) (w : Write) : Option StoreError :=
  if m.failEvery ≠ 0 ∧ m.requests % m.failEvery = 0 then
    some (.backend ("injected failure on request " ++ toString m.requests ++ " (" ++ w.kind.text ++
      " " ++ w.atom.text ++ ")"))
  else if w.atom ∈ m.failing then
    some (.backend ("atom " ++ w.atom.text ++ " is marked failing"))
  else
    none

def carryOut (name : String → String) (m : Memory) (catalog : Catalog) (w : Write) :
    Queue.Outcome × Memory :=
  let m := { m with requests := m.requests + 1 }
  match m.failure? w, w.kind with
  | some e, _ => (.error e, m)
  | none, .remove => (.ok (), { m with contents := m.contents.remove w.atom })
  | none, .store =>
    match catalog.get? w.atom with
    | some a =>
      (.ok (), { m with contents := m.contents.put w.atom (name a.document) a.document })
    | none => (.error (.encoding ("no atom " ++ w.atom.text)), m)

def backendNaming (name : String → String) : Backend Memory where
  connect
  prepare
  receive
  latency m := m.latency.getD 0
  carryOut := carryOut name
  isHealthy := healthy

def backend : Backend Memory := backendNaming fun text => contentId text.toUTF8

end Memory

end WriteBehind
