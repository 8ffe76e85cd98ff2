import WriteBehind.Calendar

/-!
# The log

A log level or a list of directives selects what is logged. A directive holds for the targets that
start with its own; of several that hold the longest decides.
-/

namespace WriteBehind.Bench

inductive Level where
  | error
  | warn
  | info
  deriving DecidableEq, Repr

namespace Level

def text : Level → String
  | error => "ERROR"
  | warn => "WARN"
  | info => "INFO"

def verbosity : Level → Nat
  | error => 1
  | warn => 2
  | info => 3

end Level

def verbosity? (s : String) : Option Nat :=
  match String.ofList (s.toList.map Char.toLower) with
  | "off" | "0" => some 0
  | "error" | "1" => some 1
  | "warn" | "2" => some 2
  | "info" | "3" => some 3
  | "debug" | "4" => some 4
  | "trace" | "5" => some 5
  | _ => none

structure Directive where
  target : String := ""
  verbosity : Nat
  deriving DecidableEq, Repr

def isTarget (s : String) : Bool :=
  !s.isEmpty && s.all fun c => c.isAlphanum || c == '_' || c == ':' || c == '-'

def Directive.ofString? (s : String) : Option Directive :=
  match verbosity? s with
  | some verbosity => some { verbosity }
  | none =>
    match s.splitOn "=" with
    | [target] | [target, ""] => if isTarget target then some { target, verbosity := 5 } else none
    | [target, level] =>
      if isTarget target then (verbosity? level).map fun verbosity => { target, verbosity } else none
    | _ => none

/-- The directives of a list with commas. Those that cannot be read are passed over; if none is left,
only errors are shown. -/
def directives (s : String) : List Directive :=
  match (s.splitOn ",").filterMap Directive.ofString? with
  | [] => [{ verbosity := 1 }]
  | ds => ds

def verbosityOf (ds : List Directive) (target : String) : Nat :=
  let best : Option Directive := ds.foldl (fun best d =>
    if target.startsWith d.target && best.all fun b => b.target.length ≤ d.target.length then some d
    else best) none
  match best with
  | some d => d.verbosity
  | none => 0

def ownTarget : String := "atomio_bench"

def isShown (filter : String) (level : Level) : Bool :=
  decide (level.verbosity ≤ verbosityOf (directives filter) ownTarget)

def logLine (seconds : Int) (micros : Nat) (level : Level) (text : String) : String :=
  let days := seconds.fdiv 86400
  let rest := (seconds - days * 86400).toNat
  let mark := String.ofList (List.replicate (5 - level.text.length) ' ') ++ level.text
  s!"{(Calendar.Date.ofDays days).text}T{Calendar.padded 2 (rest / 3600)}:" ++
    s!"{Calendar.padded 2 (rest / 60 % 60)}:{Calendar.padded 2 (rest % 60)}." ++
    s!"{Calendar.padded 6 micros}Z {mark} {ownTarget}: {text}"

end WriteBehind.Bench
