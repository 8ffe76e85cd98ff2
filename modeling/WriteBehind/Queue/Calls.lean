import WriteBehind.Queue.Event

/-!
# Calls to a queue

A call takes effect when it is made. It returns at once or waits, and a waiting call looks from time to
time whether it can go on.
-/

namespace WriteBehind.Queue.State

variable {κ ι : Type} [DecidableEq κ]

def accept (s : State κ ι) (key : κ) (item : ι) : Receipt × State κ ι :=
  let (inserted, buffer) := s.buffer.insert key item
  ({ sequence := inserted.sequence, coalesced := inserted.isCoalesced, depth := buffer.depth },
    { s with
      buffer
      counters := s.counters.recordEnqueue inserted.isCoalesced
      bell := if inserted.isCoalesced then s.bell else s.bell.ringOne })

def tryEnqueue (s : State κ ι) (id : Nat) (key : κ) (item : ι) : Effect κ ι :=
  if s.closed then (s, [.returned id (.error .closed)])
  else if s.watermarks.isOver s.depth && !s.buffer.isPending key then
    ({ s with counters := s.counters.recordRejected },
      [.returned id (.error (.queueFull s.depth s.watermarks.high))])
  else
    let (receipt, t) := s.accept key item
    (t, [.returned id (.ok (.receipt receipt))])

omit [DecidableEq κ] in
def barrier (s : State κ ι) (id : Nat) : Effect κ ι :=
  ({ s with counters := s.counters.recordFlush }.wait id (.fence s.buffer.last), [])

omit [DecidableEq κ] in
def endEnqueue (s : State κ ι) (id : Nat) (receipt : Receipt) (fenced : Bool) : Effect κ ι :=
  if fenced then ((s.barrier id).1, [.accepted id receipt])
  else (s, [.returned id (.ok (.receipt receipt))])

def enqueue (s : State κ ι) (id : Nat) (key : κ) (item : ι) (fenced : Bool) : Effect κ ι :=
  if s.closed then (s, [.returned id (.error .closed)])
  else
    let (receipt, t) := s.accept key item
    if s.stalling && s.watermarks.isOver s.depth then
      ({ t with counters := t.counters.recordStall }.wait id (.stalled receipt fenced), [])
    else
      t.endEnqueue id receipt fenced

omit [DecidableEq κ] in
def close (s : State κ ι) (id : Nat) : Effect κ ι :=
  if s.closed then (s, [.returned id (.ok .done)])
  else ({ s with counters := s.counters.recordFlush }.wait id (.closing s.buffer.last), [])

omit [DecidableEq κ] in
def setWatermarks (s : State κ ι) (id high low : Nat) : Effect κ ι :=
  match Watermarks.of high low with
  | .ok watermarks => ({ s with watermarks }, [.returned id (.ok .done)])
  | .error e => (s, [.returned id (.error e)])

omit [DecidableEq κ] in
def borrow (s : State κ ι) (id : Nat) : Effect κ ι :=
  if s.closed then (s, [.returned id (.error .closed)])
  else
    match s.pool.acquire (.call id) with
    | (.lent c, pool) => ({ s with pool }.wait id (.holding c), [.lent id c])
    | (.waits, pool) => ({ s with pool }.wait id .borrowing, [])
    | (.refused e, pool) => ({ s with pool }, [.returned id (.error e)])

omit [DecidableEq κ] in
def shutDown (s : State κ ι) : State κ ι := { s with closed := true, bell := s.bell.ringAll }.wakeAll

omit [DecidableEq κ] in
def endFence [Named κ] (s : State κ ι) (id : Nat) : Effect κ ι :=
  let (reported, t) := s.takeFailure
  (t.leave id, [.returned id (reported.map fun _ => .done)])

omit [DecidableEq κ] in
def goOn (s : State κ ι) (id : Nat) (phase : CallPhase) : State κ ι :=
  s.mapCall id fun c => { c with phase }

omit [DecidableEq κ] in
/-- The result of closing. A failure that arose behind the fence is reported if the fence was clean. -/
def endClose [Named κ] (s : State κ ι) (id : Nat) (flushed : Except Error Unit) : Effect κ ι :=
  let (reported, t) : Except Error Unit × State κ ι := match flushed with
    | .ok () => s.takeFailure
    | .error e => (.error e, s)
  (t.leave id, [.returned id (reported.map fun _ => .done)])

omit [DecidableEq κ] in
/-- A waiting call looks. Those that wait for entries to drain look only after they were woken. A
closing call does one thing at a time, so others may come in between: it takes the failure at the end of
its fence, closes the queue, takes the workers, and when they have exited closes the pool and returns. -/
def look [Named κ] (s : State κ ι) (id : Nat) : Option (Effect κ ι) := do
  let c ← s.call? id
  let asleep := s.mapCall id fun c => { c with woken := false }
  match c.phase with
  | .stalled receipt fenced =>
    if !c.woken then none
    else if s.isReleased then some ((s.leave id).endEnqueue id receipt fenced)
    else some (asleep, [])
  | .fence target =>
    if !c.woken then none
    else if s.buffer.isDrainedThrough target then some (s.endFence id)
    else some (asleep, [])
  | .closing target =>
    if !c.woken then none
    else if s.buffer.isDrainedThrough target then
      let (flushed, t) := s.takeFailure
      some (t.goOn id (.flushed flushed), [])
    else some (asleep, [])
  | .flushed flushed => some (s.shutDown.goOn id (.stopping flushed), [.closed])
  | .stopping flushed =>
    some ({ s with unjoined := [] }.goOn id (.joining flushed s.unjoined), [])
  | .joining flushed workers =>
    if workers.all fun w => (s.workers[w]?).all Phase.isExited then
      let (given, pool) := s.pool.close
      some ({ s with pool }.goOn id (.ending flushed), [.surrendered given])
    else none
  | .ending flushed => some (s.endClose id flushed)
  | .borrowing =>
    match s.pool.collect (.call id) with
    | (.lent conn, pool) =>
      some ({ s with pool }.goOn id (.holding conn), [.lent id conn])
    | (.waits, _) => none
    | (.refused e, pool) => some ({ s with pool }.leave id, [.returned id (.error e)])
  | .holding _ => none

omit [DecidableEq κ] in
def holding? (s : State κ ι) (id : Nat) : Option Connection := do
  let c ← s.call? id
  match c.phase with
  | .holding conn => some conn
  | _ => none

omit [DecidableEq κ] in
def request (s : State κ ι) (id : Nat) : Option (Effect κ ι) := do
  let conn ← s.holding? id
  return (s.goOn id (.holding conn.use), [])

omit [DecidableEq κ] in
def giveBack (s : State κ ι) (id : Nat) (result : Except StoreError (Option Connection)) :
    Option (Effect κ ι) := do
  let conn ← s.holding? id
  return ({ s with pool := s.pool.giveBack conn }.leave id,
    [.returned id ((result.mapError Error.store).map Answer.handed)])

end WriteBehind.Queue.State
