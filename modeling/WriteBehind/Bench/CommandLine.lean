import WriteBehind.Word

/-!
# The command line

Options have a long name, some a short one, and most a value, which follows as the next argument or
behind an equals sign. The first argument that stops the program decides: a request for help or for the
version, or an error.
-/

namespace WriteBehind.Bench

inductive Key where
  | config | workers | foreground | high | low | noStall | atoms | rounds | producers | latency
  | failEvery | logLevel | prometheus | help | version
  deriving DecidableEq, Repr

structure Choice where
  key : Key
  long : String
  short : Option Char := none
  value : Option String := none
  about : String

def choices : List Choice := [
  { key := .config, long := "config", short := some 'c', value := some "CONFIG",
    about := "Configuration file path [default: atomio-bench.toml]" },
  { key := .workers, long := "workers", short := some 'w', value := some "WORKERS",
    about := "Write-back worker count" },
  { key := .foreground, long := "foreground", value := some "FOREGROUND",
    about := "Connections reserved for foreground callers" },
  { key := .high, long := "high", value := some "HIGH", about := "High watermark" },
  { key := .low, long := "low", value := some "LOW", about := "Low watermark" },
  { key := .noStall, long := "no-stall", about := "Never stall producers above the high watermark" },
  { key := .atoms, long := "atoms", value := some "ATOMS",
    about := "Distinct atoms written per round" },
  { key := .rounds, long := "rounds", value := some "ROUNDS", about := "Number of rounds" },
  { key := .producers, long := "producers", value := some "PRODUCERS",
    about := "Concurrent producer tasks" },
  { key := .latency, long := "latency-ms", value := some "LATENCY_MS",
    about := "Simulated backend latency per request" },
  { key := .failEvery, long := "fail-every", value := some "FAIL_EVERY",
    about := "Fail every Nth backend request (0 disables)" },
  { key := .logLevel, long := "log-level", value := some "LOG_LEVEL",
    about := "Log level [default: info]" },
  { key := .prometheus, long := "prometheus", about := "Print Prometheus metrics after the report" },
  { key := .help, long := "help", short := some 'h', about := "Print help" },
  { key := .version, long := "version", short := some 'V', about := "Print version" }]

def Choice.text (c : Choice) : String :=
  "--" ++ c.long ++ (match c.value with
    | some v => " <" ++ v ++ ">"
    | none => "")

structure Options where
  config : String := "atomio-bench.toml"
  workers : Option Nat := none
  foreground : Option Nat := none
  high : Option Nat := none
  low : Option Nat := none
  noStall : Bool := false
  atoms : Option Nat := none
  rounds : Option Nat := none
  producers : Option Nat := none
  /-- In milliseconds. -/
  latency : Option Nat := none
  failEvery : Option Nat := none
  logLevel : String := "info"
  prometheus : Bool := false
  deriving DecidableEq, Repr

inductive Stop where
  | help
  | version
  | unexpected (argument : String)
  | surplus (option : Choice) (value : String)
  | missing (option : Choice)
  | invalid (option : Choice) (value : String)
  | repeated (option : Choice)

def optionLines : List String :=
  let heads := choices.map fun c => (match c.short with
    | some s => "  -" ++ s.toString ++ ", "
    | none => "      ") ++ c.text
  let width := heads.foldl (fun n h => max n h.length) 0
  (heads.zip choices).map fun (h, c) =>
    h ++ String.ofList (List.replicate (width - h.length) ' ') ++ "  " ++ c.about

namespace Stop

def exitCode : Stop → Nat
  | help | version => 0
  | _ => 2

def lines : Stop → List String
  | help => ["Atomio write-back load generator", "", "Usage: atomio-bench [OPTIONS]", "", "Options:"] ++
      optionLines
  | version => ["atomio-bench 0.1.0"]
  | unexpected a => ["error: unexpected argument '" ++ a ++ "' found"]
  | surplus c v => ["error: unexpected value '" ++ v ++ "' for '--" ++ c.long ++
      "' found; no more were expected"]
  | missing c => ["error: a value is required for '" ++ c.text ++ "' but none was supplied"]
  | invalid c v => ["error: invalid value '" ++ v ++ "' for '" ++ c.text ++ "'"]
  | repeated c => ["error: the argument '" ++ c.text ++ "' cannot be used multiple times"]

end Stop

def number? (s : String) : Option Nat :=
  let digits := match s.toList with
    | '+' :: rest => rest
    | cs => cs
  if digits.isEmpty || !digits.all Char.isDigit then none
  else
    let n := digits.foldl (fun n c => n * 10 + (c.toNat - '0'.toNat)) 0
    if n < wordSize then some n else none

def Options.set? (o : Options) (value : String) : Key → Option Options
  | .config => some { o with config := value }
  | .workers => (number? value).map fun n => { o with workers := some n }
  | .foreground => (number? value).map fun n => { o with foreground := some n }
  | .high => (number? value).map fun n => { o with high := some n }
  | .low => (number? value).map fun n => { o with low := some n }
  | .noStall => some { o with noStall := true }
  | .atoms => (number? value).map fun n => { o with atoms := some n }
  | .rounds => (number? value).map fun n => { o with rounds := some n }
  | .producers => (number? value).map fun n => { o with producers := some n }
  | .latency => (number? value).map fun n => { o with latency := some n }
  | .failEvery => (number? value).map fun n => { o with failEvery := some n }
  | .logLevel => some { o with logLevel := value }
  | .prometheus => some { o with prometheus := true }
  | .help | .version => some o

def Options.set (o : Options) (c : Choice) (value : String) : Except Stop Options :=
  match o.set? value c.key with
  | some o => .ok o
  | none => .error (.invalid c value)

def splitEquals : List Char → List Char × Option String
  | [] => ([], none)
  | '=' :: rest => ([], some (String.ofList rest))
  | c :: rest =>
    let (name, value) := splitEquals rest
    (c :: name, value)

def named? (argument : String) : Option (Choice × Option String) :=
  match argument.toList with
  | '-' :: '-' :: rest =>
    let (name, value) := splitEquals rest
    (choices.find? fun c => c.long == String.ofList name).map fun c => (c, value)
  | '-' :: s :: rest =>
    (choices.find? fun c => c.short == some s).map fun c => (c, match c.value, rest with
      | none, _ | some _, [] => none
      | some _, '=' :: value | some _, value => some (String.ofList value))
  | _ => none

def isMarked (argument : String) : Bool := argument.startsWith "-" && argument != "-"

def readArguments : (open? : Option Choice) → (seen : List Key) → Options → List String →
    Except Stop Options
  | some c, _, _, [] => .error (.missing c)
  | none, _, o, [] => .ok o
  | some c, seen, o, a :: rest =>
    if isMarked a then .error (.missing c)
    else
      match o.set c a with
      | .ok o => readArguments none seen o rest
      | .error e => .error e
  | none, seen, o, a :: rest =>
    if a = "--" then
      match rest with
      | [] => .ok o
      | b :: _ => .error (.unexpected b)
    else
      match named? a with
      | none => .error (.unexpected a)
      | some (c, attached) =>
        if c.key ∈ seen then .error (.repeated c)
        else
          match c.value, attached with
          | some _, some value =>
            match o.set c value with
            | .ok o => readArguments none (c.key :: seen) o rest
            | .error e => .error e
          | some _, none => readArguments (some c) (c.key :: seen) o rest
          | none, some value => .error (.surplus c value)
          | none, none =>
            match c.key with
            | .help => .error .help
            | .version => .error .version
            | _ =>
              match o.set c "" with
              | .ok o => readArguments none (c.key :: seen) o rest
              | .error e => .error e

def Options.ofArguments (arguments : List String) : Except Stop Options :=
  readArguments none [] {} arguments

end WriteBehind.Bench
