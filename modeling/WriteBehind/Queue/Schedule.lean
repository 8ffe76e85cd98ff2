import WriteBehind.Queue.Step

/-!
# The cooperative schedule

One interleaving of a queue with the stores behind it: a worker that has started runs until it has to
wait, and when no worker can move the calls that wait look once, oldest first. A call that can go on
goes on as far as it can. This is repeated until nothing moves.
-/

namespace WriteBehind.Queue

structure Stores (σ κ ι : Type) where
  /-- The store of an entry begins. With an outcome it ends at once, else it ends later. -/
  begin : σ → (now worker : Nat) → Claimed κ ι → Option Outcome × σ

structure Scene (σ κ ι : Type) where
  queue : State κ ι
  shared : σ
  notices : List (Notice κ ι) := []

namespace Scene

variable {σ κ ι : Type} [DecidableEq κ] [Named κ]

def apply (r : Scene σ κ ι) (e : Event κ ι) : Scene σ κ ι :=
  match step r.queue e with
  | some (queue, out) => { r with queue, notices := r.notices ++ out }
  | none => r

def invoked? : List (Notice κ ι) → Option (Claimed κ ι)
  | .invoked _ entry _ :: _ => some entry
  | _ => none

def moveWorker (stores : Stores σ κ ι) (w : Nat) (r : Scene σ κ ι) : Option (Scene σ κ ι) := do
  let (queue, out) ← step r.queue (.work w)
  let r := { r with queue, notices := r.notices ++ out }
  match invoked? out with
  | none => return r
  | some entry =>
    let (outcome?, shared) := stores.begin r.shared r.queue.now w entry
    let r := { r with shared }
    match outcome? with
    | some outcome => return r.apply (.finish w outcome)
    | none => return r

def runSteps (stores : Stores σ κ ι) (w : Nat) : Nat → Scene σ κ ι → Scene σ κ ι
  | 0, r => r
  | n + 1, r =>
    match r.moveWorker stores w with
    | some r => runSteps stores w n r
    | none => r

omit [DecidableEq κ] [Named κ] in
/-- The workers take fewer steps than this: seven for each of them and eight for each entry, and between
two of these each worker may be woken once. -/
def reach (r : Scene σ κ ι) : Nat :=
  3 * (r.queue.workers.length + 1) *
    (7 * r.queue.workers.length + 8 * r.queue.buffer.order.length + 1)

def runWorker (stores : Stores σ κ ι) (w : Nat) (r : Scene σ κ ι) : Scene σ κ ι :=
  runSteps stores w r.reach r

omit [DecidableEq κ] [Named κ] in
def isUnderway : Phase κ ι → Bool
  | .claimed .. | .ready .. | .ended .. | .retiring .. => true
  | _ => false

omit [DecidableEq κ] [Named κ] in
/-- The order in which workers are considered: those underway, those whose turn at the pool has come,
those that were woken, then all. -/
def candidates (s : State κ ι) : List Nat :=
  (List.range s.workers.length).filter (fun w => (s.workers[w]?).any isUnderway) ++
    (s.pool.promised ++ s.pool.waiters).filterMap (fun b => match b with
      | .worker w => some w
      | .call _ => none) ++
    s.bell.woken ++
    List.range s.workers.length

def nextWorker? (s : State κ ι) : Option Nat :=
  (candidates s).find? fun w => (step s (.work w)).isSome

def runTurns (stores : Stores σ κ ι) : Nat → Scene σ κ ι → Scene σ κ ι
  | 0, r => r
  | n + 1, r =>
    match nextWorker? r.queue with
    | some w => runTurns stores n (r.runWorker stores w)
    | none => r

def runWorkers (stores : Stores σ κ ι) (r : Scene σ κ ι) : Scene σ κ ι :=
  runTurns stores r.reach r

omit [DecidableEq κ] [Named κ] in
def isAsleep (s : State κ ι) (id : Nat) : Bool := (s.call? id).any fun c => !c.woken

def lookTimes (id : Nat) : Nat → Scene σ κ ι → Bool × Scene σ κ ι
  | 0, r => (false, r)
  | n + 1, r =>
    match step r.queue (.look id) with
    | none => (false, r)
    | some (queue, out) =>
      let r := { r with queue, notices := r.notices ++ out }
      if isAsleep queue id then (false, r) else (true, (lookTimes id n r).2)

/-- A call goes on as far as it can. Behind a stall there may be a fence; behind the fence of a closing
call there are four things to do. No call has to pass more than that. -/
def lookAt (id : Nat) (r : Scene σ κ ι) : Bool × Scene σ κ ι := lookTimes id 5 r

def lookAll (look : Nat → Scene σ κ ι → Bool × Scene σ κ ι) :
    List Nat → Scene σ κ ι → Bool × Scene σ κ ι
  | [], r => (false, r)
  | id :: rest, r =>
    let (moved, r) := look id r
    let (later, r) := lookAll look rest r
    (moved || later, r)

def rounds (stores : Stores σ κ ι) (look : Nat → Scene σ κ ι → Bool × Scene σ κ ι) :
    Nat → Scene σ κ ι → Scene σ κ ι
  | 0, r => r
  | n + 1, r =>
    let r := (r.runWorkers stores).apply .expire
    match lookAll look (r.queue.calls.map (·.id)) r with
    | (true, r) => rounds stores look n r
    | (false, r) => r.runWorkers stores

/-- Lets everything move until nothing does. A call gets further five times at most, and then it has
returned. -/
def settle (stores : Stores σ κ ι) (look : Nat → Scene σ κ ι → Bool × Scene σ κ ι)
    (r : Scene σ κ ι) : Scene σ κ ι :=
  rounds stores look (5 * r.queue.calls.length + 2) r

end Scene

end WriteBehind.Queue
