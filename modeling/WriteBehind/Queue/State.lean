import WriteBehind.Buffer
import WriteBehind.Config
import WriteBehind.Connection
import WriteBehind.Pool.Basic
import WriteBehind.Queue.Bell
import WriteBehind.Stats.Snapshot
import WriteBehind.Text.Quoted

/-!
# The state of a write-behind queue

A queue is a buffer, a fixed set of workers that drain it over a pool of connections, and the calls
that wait for it. What a worker or a call has reached is its phase.
-/

namespace WriteBehind

/-- A type of identities with the form in which failure messages name them. -/
class Named (κ : Type) where
  describe : κ → String

instance : Named String := ⟨Quoted.quote⟩

structure Receipt where
  sequence : Sequence
  coalesced : Bool
  depth : Nat
  deriving DecidableEq, Repr

namespace Queue

abbrev Outcome := Except StoreError Unit

inductive Borrower where
  | worker (n : Nat)
  | call (id : Nat)
  deriving DecidableEq, Repr

structure Drain (κ ι : Type) where
  entry : Claimed κ ι
  /-- When it was claimed, in microseconds. -/
  since : Nat
  deriving DecidableEq, Repr

inductive Phase (κ ι : Type) where
  | idle
  | claimed (drain : Drain κ ι)
  | borrowing (drain : Drain κ ι)
  | ready (drain : Drain κ ι) (connection : Connection)
  | storing (drain : Drain κ ι) (connection : Connection)
  /-- The attempt has ended and the connection is back. -/
  | ended (entry : Claimed κ ι) (outcome : Outcome)
  /-- A failure has been noted; the entry is about to retire. -/
  | retiring (entry : Claimed κ ι) (outcome : Outcome)
  | exited

namespace Phase

variable {κ ι : Type}

def entry? : Phase κ ι → Option (Claimed κ ι)
  | claimed d | borrowing d | ready d _ | storing d _ => some d.entry
  | ended e _ | retiring e _ => some e
  | idle | exited => none

def connection? : Phase κ ι → Option Connection
  | ready _ c | storing _ c => some c
  | _ => none

def isExited : Phase κ ι → Bool
  | exited => true
  | _ => false

end Phase

inductive CallPhase where
  | stalled (receipt : Receipt) (fenced : Bool)
  | fence (target : Sequence)
  | closing (target : Sequence)
  /-- The fence of a closing call is over and has said this; the queue is about to close. -/
  | flushed (flushed : Except Error Unit)
  | stopping (flushed : Except Error Unit)
  /-- The call has taken these workers, which have to exit. -/
  | joining (flushed : Except Error Unit) (workers : List Nat)
  | ending (flushed : Except Error Unit)
  | borrowing
  | holding (connection : Connection)

structure Call where
  id : Nat
  phase : CallPhase
  /-- Whether an entry retired or the queue closed since the call last looked. -/
  woken : Bool := true

structure Failure (κ : Type) where
  key : κ
  sequence : Sequence
  cause : StoreError
  deriving DecidableEq, Repr

def Failure.error {κ : Type} [Named κ] (f : Failure κ) : Error :=
  .deferred (Named.describe f.key) f.sequence f.cause

structure State (κ ι : Type) where
  buffer : Buffer κ ι := {}
  watermarks : Watermarks
  stalling : Bool
  counters : Counters := {}
  /-- The oldest failure that no fence has reported. -/
  failure : Option (Failure κ) := none
  pool : Pool Connection Borrower
  closed : Bool := false
  /-- Nobody can call the queue any more; it closes when the last call has returned. -/
  abandoned : Bool := false
  workers : List (Phase κ ι)
  /-- Workers whose end no closing call waits for yet. -/
  unjoined : List Nat
  bell : Bell := {}
  calls : List Call := []
  /-- The time in microseconds. -/
  now : Nat := 0

namespace State

variable {κ ι : Type}

def start (config : QueueConfig) (pool : Pool Connection Borrower) : Except Error (State κ ι) := do
  config.validate
  return {
    watermarks := config.watermarks
    stalling := config.stall
    pool
    workers := List.replicate config.workers .idle
    unjoined := List.range config.workers }

def depth (s : State κ ι) : Nat := s.buffer.depth

def gauges (s : State κ ι) : Gauges where
  depth := s.depth
  pending := s.buffer.pending.size
  inFlight := s.buffer.inFlight.size
  watermarks := s.watermarks
  stalling := s.stalling
  workers := s.workers.length
  poolAvailable := s.pool.size
  poolCapacity := s.pool.capacity

def snapshot (s : State κ ι) : Snapshot := s.counters.snapshot s.gauges

def text (s : State κ ι) : String :=
  "WriteBackQueue \x7b workers: " ++ toString s.workers.length ++ ", depth: " ++ toString s.depth ++
    ", closed: " ++ toString s.closed ++ ", .. \x7d"

def call? (s : State κ ι) (id : Nat) : Option Call := s.calls.find? fun c => c.id == id

def wait (s : State κ ι) (id : Nat) (phase : CallPhase) : State κ ι :=
  { s with
    calls := s.calls.takeWhile (fun c => decide (c.id < id)) ++
      { id, phase } :: s.calls.dropWhile (fun c => decide (c.id < id)) }

def mapCall (s : State κ ι) (id : Nat) (f : Call → Call) : State κ ι :=
  { s with calls := s.calls.map fun c => if c.id = id then f c else c }

def leave (s : State κ ι) (id : Nat) : State κ ι :=
  { s with calls := s.calls.filter fun c => decide (c.id ≠ id) }

def wakeAll (s : State κ ι) : State κ ι :=
  { s with calls := s.calls.map fun c => { c with woken := true } }

def setWorker (s : State κ ι) (w : Nat) (phase : Phase κ ι) : State κ ι :=
  { s with workers := s.workers.set w phase }

def isReleased (s : State κ ι) : Bool :=
  !s.stalling || s.closed || s.watermarks.isReleased s.depth

def takeFailure [Named κ] (s : State κ ι) : Except Error Unit × State κ ι :=
  match s.failure with
  | some f => (.error f.error, { s with failure := none })
  | none => (.ok (), s)

def hold (s : State κ ι) (entry : Claimed κ ι) : Outcome → State κ ι
  | .ok () => s
  | .error cause =>
    { s with failure := s.failure <|> some ⟨entry.key, entry.sequence, cause⟩ }

end State

end Queue

end WriteBehind
