import WriteBehind.Stats.Histogram

/-!
# Live counters of a queue

The counters describe a window of time, which `clear` starts anew. The number of busy workers is a
gauge: it is not part of the window.
-/

namespace WriteBehind

structure Counters where
  items : Nat := 0
  duplicates : Nat := 0
  flushes : Nat := 0
  /-- Ended drains, whatever their outcome. -/
  drained : Nat := 0
  failed : Nat := 0
  stalls : Nat := 0
  rejected : Nat := 0
  /-- The sum over drains of the workers that were busy when the drain began, modulo `2 ^ 64`. -/
  concurrent : Nat := 0
  busy : Nat := 0
  drains : Histogram := {}
  deriving DecidableEq, Repr

namespace Counters

def recordEnqueue (c : Counters) (coalesced : Bool) : Counters :=
  { c with items := c.items + 1, duplicates := c.duplicates + coalesced.toNat }

def recordFlush (c : Counters) : Counters := { c with flushes := c.flushes + 1 }

def recordStall (c : Counters) : Counters := { c with stalls := c.stalls + 1 }

def recordRejected (c : Counters) : Counters := { c with rejected := c.rejected + 1 }

def beginDrain (c : Counters) : Counters :=
  { c with concurrent := wrap (c.concurrent + c.busy), busy := wrap (c.busy + 1) }

def endDrain (c : Counters) (micros : Nat) (ok : Bool) : Counters :=
  { c with
    drains := c.drains.record (wrap micros)
    drained := c.drained + 1
    failed := c.failed + (!ok).toNat
    busy := wrap (c.busy + maxWord) }

def clear (c : Counters) : Counters := { busy := c.busy }

end Counters

end WriteBehind
