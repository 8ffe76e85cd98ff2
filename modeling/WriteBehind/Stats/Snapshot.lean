import WriteBehind.Stats.Counters
import WriteBehind.Watermarks

/-!
# Snapshots

A snapshot is what a queue looks like at one moment: its counters, the summary of its drain times,
and gauges that are read from the live queue. Ratios are derived from it.
-/

namespace WriteBehind

structure Gauges where
  depth : Nat
  pending : Nat
  inFlight : Nat
  watermarks : Watermarks
  stalling : Bool
  workers : Nat
  poolAvailable : Nat
  poolCapacity : Nat
  deriving DecidableEq, Repr

structure Snapshot where
  items : Nat
  duplicates : Nat
  flushes : Nat
  drained : Nat
  failed : Nat
  stalls : Nat
  rejected : Nat
  concurrent : Nat
  latency : Latency
  buckets : List (Nat × Nat)
  drainTime : Nat
  busy : Nat
  gauges : Gauges
  deriving DecidableEq, Repr

def Counters.snapshot (c : Counters) (gauges : Gauges) : Snapshot where
  items := c.items
  duplicates := c.duplicates
  flushes := c.flushes
  drained := c.drained
  failed := c.failed
  stalls := c.stalls
  rejected := c.rejected
  concurrent := c.concurrent
  latency := c.drains.latency
  buckets := c.drains.buckets
  drainTime := c.drains.sum
  busy := c.busy
  gauges := gauges

/-- A quotient of counters; nothing over nothing is 0. -/
def ratio (numerator denominator : Nat) : Float :=
  if denominator = 0 then 0 else wordToFloat numerator / wordToFloat denominator

def microsToSecs (micros : Nat) : Float := wordToFloat micros / 1000000

namespace Snapshot

def enqueued (s : Snapshot) : Nat := s.items - s.duplicates

def succeeded (s : Snapshot) : Nat := s.drained - s.failed

def duplicateFraction (s : Snapshot) : Float := ratio s.duplicates s.enqueued

def flushRatio (s : Snapshot) : Float := ratio s.enqueued s.flushes

/-- Entries per ended drain; over 1 while a backlog remains. -/
def fillFraction (s : Snapshot) : Float := ratio s.enqueued s.drained

def concurrency (s : Snapshot) : Float := ratio (wrap (s.drained + s.concurrent)) s.drained

def avgDrainSecs (s : Snapshot) : Float := ratio s.drainTime s.drained / 1000000

def slowestDrainSecs (s : Snapshot) : Float := microsToSecs s.latency.max

end Snapshot

end WriteBehind
