import WriteBehind.Queue.Event

/-!
# Workers of a queue

An idle worker asks to be woken and then looks for an entry, so that it misses none that comes in between.
It claims an entry, borrows a connection and starts the store of the entry. When the store has ended,
whatever its outcome, the connection goes back, the entry retires, and the worker looks for the next one.
-/

namespace WriteBehind.Queue.State

variable {κ ι : Type} [DecidableEq κ]

omit [DecidableEq κ] in
def endDrain (s : State κ ι) (w : Nat) (drain : Drain κ ι) (outcome : Outcome) : State κ ι :=
  { s with counters := s.counters.endDrain (s.now - drain.since) outcome.isOk }.setWorker w
    (.ended drain.entry outcome)

/-- What an idle worker finds that looks: the oldest entry that can be claimed, the end when the queue is
closed and nothing is pending, or nothing, and then it sleeps until it is woken. -/
def search (s : State κ ι) (w : Nat) : State κ ι :=
  let bell := s.bell.look w
  match s.buffer.claim with
  | (some entry, buffer) =>
    { s with buffer, bell, counters := s.counters.beginDrain }.setWorker w
      (.claimed { entry, since := s.now })
  | (none, _) =>
    if s.closed ∧ s.buffer.pending.size = 0 then { s with bell := bell.leave w }.setWorker w .exited
    else { s with bell }

omit [DecidableEq κ] in
/-- The bell when an entry has retired. Another payload of its key that can be claimed now wakes a worker; in
a closed queue they are all woken, for they may have waited for this one. -/
def rung (s : State κ ι) (claimable : Bool) : Bell :=
  let bell := if claimable then s.bell.ringOne else s.bell
  if s.closed then bell.ringAll else bell

def retire (s : State κ ι) (w : Nat) (entry : Claimed κ ι) : State κ ι :=
  let (claimable, buffer) := s.buffer.complete entry.key entry.sequence
  { s with buffer, bell := (s.rung claimable).leave w }.wakeAll.setWorker w .idle

def work (s : State κ ι) (w : Nat) : Option (Effect κ ι) := do
  match ← s.workers[w]? with
  | .idle =>
    if w ∈ s.bell.alert then some (s.search w, [])
    else if w ∈ s.bell.waiters then none
    else some ({ s with bell := s.bell.ask w }, [])
  | .claimed drain =>
    match s.pool.acquire (.worker w) with
    | (.lent conn, pool) => some ({ s with pool }.setWorker w (.ready drain conn), [])
    | (.waits, pool) => some ({ s with pool }.setWorker w (.borrowing drain), [])
    | (.refused e, pool) =>
      some ({ s with pool }.endDrain w drain (.error (.connectionFailed e.message)), [])
  | .borrowing drain =>
    match s.pool.collect (.worker w) with
    | (.lent conn, pool) => some ({ s with pool }.setWorker w (.ready drain conn), [])
    | (.waits, _) => none
    | (.refused e, pool) =>
      some ({ s with pool }.endDrain w drain (.error (.connectionFailed e.message)), [])
  | .ready drain conn =>
    some (s.setWorker w (.storing drain conn.use), [.invoked w drain.entry conn.use])
  | .ended entry outcome => some ((s.hold entry outcome).setWorker w (.retiring entry outcome), [])
  | .retiring entry outcome => some (s.retire w entry, [.drained entry outcome])
  | .storing .. | .exited => none

omit [DecidableEq κ] in
def finish (s : State κ ι) (w : Nat) (outcome : Outcome) : Option (Effect κ ι) := do
  match ← s.workers[w]? with
  | .storing drain conn =>
    some ({ s with pool := s.pool.giveBack conn }.endDrain w drain outcome, [])
  | _ => none

omit [DecidableEq κ] in
def storing? (s : State κ ι) (p : Claimed κ ι → Bool) : Option Nat :=
  s.workers.findIdx? fun phase => match phase with
    | .storing drain _ => p drain.entry
    | _ => false

end WriteBehind.Queue.State
