import Std.Time.DateTime.Timestamp
import WriteBehind.Bench.Luck
import WriteBehind.Bench.Run

/-!
# The load generator as a program
-/

namespace WriteBehind.Bench

def clock : IO (Int × Nat) := do
  let nanos := (← Std.Time.Timestamp.now).toNanosecondsSinceUnixEpoch.val
  return (nanos.fdiv 1000000000, (nanos.fmod 1000000000).toNat / 1000)

def emit (filter : String) (out : List Output) : IO Unit :=
  (shown filter out).forM fun o => do
    match o with
    | .line text => IO.println text
    | .log level text =>
      let (seconds, micros) ← clock
      IO.println (logLine seconds micros level text)

def readFile (path : String) : IO File := do
  try
    return .text (← IO.FS.readFile path)
  catch
    | .noFileOrDirectory .. => return .missing
    | _ => return .unreadable

def playRounds (s : Settings) (luck : Luck) : (left round failed : Nat) → Desk → IO (Nat × Desk)
  | 0, _, failed, d => return (failed, d)
  | left + 1, round, failed, d => do
    let begun ← IO.monoNanosNow
    let (result, next) ← IO.lazyPure fun _ => d.round luck s.workload round
    IO.sleep ((next.session.queue.now - d.session.queue.now) / 1000).toUInt32
    let ended ← IO.monoNanosNow
    emit s.logLevel [roundOutput round (ended - begun) result]
    playRounds s luck left (round + 1) (if result.isOk then failed else failed + 1) next

def play (s : Settings) : IO UInt32 := do
  let luck := Luck.ofSeed (← IO.rand 0 0x4000000000000000)
  emit s.logLevel s.opening
  match s.open? luck (← clock).1 with
  | .error e =>
    emit s.logLevel [openFailed e]
    return 1
  | .ok d =>
    let begun ← IO.monoNanosNow
    let (failed, d) ← playRounds s luck s.workload.rounds 0 0 d
    let ended ← IO.monoNanosNow
    emit s.logLevel (reportLines s d.session.stats failed (ended - begun))
    emit s.logLevel (closing (d.complete .close).1)
    return 0

end WriteBehind.Bench

open WriteBehind.Bench in
def main (arguments : List String) : IO UInt32 := do
  match Options.ofArguments arguments with
  | .error stop =>
    stop.lines.forM fun l => if stop.exitCode = 0 then IO.println l else IO.eprintln l
    return stop.exitCode.toUInt32
  | .ok o =>
    match ← readFile o.config with
    | .unreadable =>
      IO.eprintln ("Error: cannot read " ++ o.config)
      return 1
    | file =>
      let (warning, config) := file.config
      if warning then IO.eprintln "Warning: Failed to parse config file: it is not valid"
      play (Settings.of o config)
