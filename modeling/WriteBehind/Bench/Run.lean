import WriteBehind.Bench.Duration
import WriteBehind.Bench.Log
import WriteBehind.Bench.Round
import WriteBehind.Decimal.Fixed
import WriteBehind.Stats.Exposition

/-!
# Runs

A run opens a session over the memory backend, pushes rounds of writes through it and prints the
report of the session.
-/

namespace WriteBehind.Bench

inductive Output where
  | line (text : String)
  | log (level : Level) (text : String)
  deriving DecidableEq, Repr

inductive File where
  | missing
  | unreadable
  | text (content : String)

structure Transcript where
  warning : Bool := false
  output : List Output := []
  complaint : List String := []
  exitCode : Nat := 0

def File.config : File → Bool × FileConfig
  | text content =>
    match FileConfig.ofText? content with
    | some c => (false, c)
    | none => (true, {})
  | _ => (false, {})

def Settings.opening (s : Settings) : List Output := [
  .log .info "Starting Atomio bench",
  .log .info ("Config file: " ++ s.config),
  .log .info (s!"Workload: {s.workload.atoms} atoms x {s.workload.rounds} rounds from " ++
    s!"{s.workload.producers} producers")]

def Luck.catalog (luck : Luck) (atoms : Nat) : Catalog :=
  (List.range atoms).foldl
    (fun c i => c.insert (.node (luck.id i) "ConceptNode" ("atom-" ++ toString i))) {}

def Settings.open? (s : Settings) (luck : Luck) (since : Int) : Except Error Desk :=
  let memory : Memory := {
    latency := if s.latency = 0 then none else some s.latency
    failEvery := s.failEvery }
  (Session.start Memory.backend s.session since memory).1.map fun session =>
    { session := session.mapCatalog fun _ => luck.catalog s.workload.atoms }

def openFailed (e : Error) : Output := .log .error ("Failed to open storage: " ++ e.message)

def roundOutput (round nanos : Nat) : Except Error Unit → Output
  | .ok () => .log .info s!"Round {round} flushed in {durationText nanos}"
  | .error e => .log .warn s!"Round {round} flushed with failure: {e.message}"

def secondsOf (nanos : Nat) : Float := wordToFloat nanos / 1000000000

def epsilon : Float := Float.ofBits 0x3cb0000000000000

def elapsedLine (items failedRounds nanos : Nat) : String :=
  let elapsed := secondsOf nanos
  let rate := wordToFloat items / (if elapsed < epsilon then epsilon else elapsed)
  s!"elapsed={Decimal.fixed 3 elapsed}s enqueue_rate={Decimal.fixed 0 rate}/s " ++
    s!"rounds_with_failures={failedRounds}"

def reportLines (s : Settings) (stats : SessionStats) (failedRounds nanos : Nat) : List Output :=
  let metrics := ({} : Exporter).withLabel "session" stats.name
  ((stats.report.splitOn "\n") ++ [elapsedLine stats.queue.items failedRounds nanos] ++
    (if s.prometheus then (metrics.lines stats.queue).map (·.text) else [])).map .line

def closing : Except Error Unit → List Output
  | .ok () => [.log .info "Atomio bench finished"]
  | .error e =>
    [.log .warn ("Close reported failure: " ++ e.message), .log .info "Atomio bench finished"]

def shown (filter : String) (out : List Output) : List Output :=
  out.filter fun o => match o with
    | .line _ => true
    | .log level _ => isShown filter level

structure Timing where
  round : Nat → Nat := fun _ => 0
  total : Nat := 0

def rounds (luck : Luck) (timing : Timing) (w : Workload) :
    (left round failed : Nat) → Desk → List Output × Nat × Desk
  | 0, _, failed, d => ([], failed, d)
  | left + 1, round, failed, d =>
    let (result, d) := d.round luck w round
    let failed := if result.isOk then failed else failed + 1
    let (out, failed, d) := rounds luck timing w left (round + 1) failed d
    (roundOutput round (timing.round round) result :: out, failed, d)

def Settings.run (s : Settings) (luck : Luck) (timing : Timing) (since : Int) : Transcript :=
  match s.open? luck since with
  | .error e => { output := shown s.logLevel (s.opening ++ [openFailed e]), exitCode := 1 }
  | .ok d =>
    let (out, failed, d) := rounds luck timing s.workload s.workload.rounds 0 0 d
    let report := reportLines s d.session.stats failed timing.total
    let (closed, _) := d.complete .close
    { output := shown s.logLevel (s.opening ++ out ++ report ++ closing closed) }

def run (arguments : List String) (file : String → File) (luck : Luck) (timing : Timing)
    (since : Int) : Transcript :=
  match Options.ofArguments arguments with
  | .error stop =>
    if stop.exitCode = 0 then { output := stop.lines.map .line }
    else { complaint := stop.lines, exitCode := stop.exitCode }
  | .ok o =>
    match file o.config with
    | .unreadable => { complaint := ["Error: cannot read " ++ o.config], exitCode := 1 }
    | f =>
      let (warning, config) := f.config
      { (Settings.of o config).run luck timing since with warning }

end WriteBehind.Bench
