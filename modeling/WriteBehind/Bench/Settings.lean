import WriteBehind.Bench.CommandLine
import WriteBehind.Coding
import WriteBehind.Toml.Document

/-!
# Settings of a run

A run is set up by a configuration file over the defaults, and by the command line over the file.
-/

namespace WriteBehind.Bench

structure Workload where
  atoms : Nat := 10000
  rounds : Nat := 4
  producers : Nat := 4
  deriving DecidableEq, Repr

structure FileConfig where
  session : SessionConfig := {}
  workload : Workload := {}
  /-- In milliseconds. -/
  latency : Nat := 0
  failEvery : Nat := 0
  logLevel : String := "info"
  deriving DecidableEq, Repr

namespace FileConfig

variable {α : Type}

def decodeBench? (f : Format α) (c : FileConfig) (part : α) : Option FileConfig := do
  match ← f.fields? ["atoms", "rounds", "producers", "latency_ms", "fail_every"] part with
  | [atoms, rounds, producers, latency, failEvery] =>
    return { c with
      workload := {
        atoms := ← Format.orDefault c.workload.atoms f.nat? atoms
        rounds := ← Format.orDefault c.workload.rounds f.nat? rounds
        producers := ← Format.orDefault c.workload.producers f.nat? producers }
      latency := ← Format.orDefault c.latency f.nat? latency
      failEvery := ← Format.orDefault c.failEvery f.nat? failEvery }
  | _ => none

def decodeLogging? (f : Format α) (c : FileConfig) (part : α) : Option FileConfig := do
  match ← f.fields? ["level"] part with
  | [level] => return { c with logLevel := ← Format.orDefault c.logLevel f.text? level }
  | _ => none

def decode? (f : Format α) (part : α) : Option FileConfig := do
  match ← f.fields? ["storage", "bench", "logging"] part with
  | [session, bench, logging] =>
    let c : FileConfig := { session := ← Format.orDefault {} (SessionConfig.decode? f) session }
    let c ← Format.orDefault c (decodeBench? f c) bench
    Format.orDefault c (decodeLogging? f c) logging
  | _ => none

def ofText? (text : String) : Option FileConfig := Toml.decode? (decode? Toml.format) text

end FileConfig

structure Settings where
  config : String
  session : SessionConfig
  workload : Workload
  latency : Nat
  failEvery : Nat
  logLevel : String
  prometheus : Bool
  deriving DecidableEq, Repr

/-- The command line over a configuration. There is at least one producer; the log level of the
command line counts unless it is the default. -/
def Settings.of (o : Options) (c : FileConfig) : Settings where
  config := o.config
  session := { c.session with
    foreground := o.foreground.getD c.session.foreground
    queue := {
      workers := o.workers.getD c.session.queue.workers
      watermarks := {
        high := o.high.getD c.session.queue.watermarks.high
        low := o.low.getD c.session.queue.watermarks.low }
      stall := !o.noStall && c.session.queue.stall } }
  workload := {
    atoms := o.atoms.getD c.workload.atoms
    rounds := o.rounds.getD c.workload.rounds
    producers := max 1 (o.producers.getD c.workload.producers) }
  latency := o.latency.getD c.latency
  failEvery := o.failEvery.getD c.failEvery
  logLevel := if o.logLevel = "info" then c.logLevel else o.logLevel
  prometheus := o.prometheus

end WriteBehind.Bench
