import WriteBehind.Backend.Basic
import WriteBehind.Queue.Schedule

/-!
# Behind a session

What the workers and the other callers of a session share: the backend, the atoms, and the requests that
are under way. A request ends when the clock reaches its start plus the latency that the backend had
then.
-/

namespace WriteBehind

namespace Session

structure Running where
  worker : Nat
  write : Write
  /-- When it ends, in microseconds. -/
  deadline : Nat

inductive Foreground where
  | requesting (write : Write)
  | requested (write : Write) (deadline : Nat)
  | keeping
  | done

structure Backstage (β : Type) where
  store : β
  catalog : Catalog := {}
  running : List Running := []
  foreground : Table Nat Foreground := {}

abbrev Stage (β : Type) := Queue.Scene (Backstage β) AtomId Write

variable {β : Type}

def Backstage.begin (b : Backend β) (s : Backstage β) (now : Nat) (w : Write) :
    (Queue.Outcome ⊕ Nat) × Backstage β :=
  let store := b.receive s.store w
  match b.latency store with
  | 0 =>
    let (outcome, store) := b.carryOut store s.catalog w
    (.inl outcome, { s with store })
  | millis => (.inr (now + millis * 1000), { s with store })

def Backstage.carryOut (b : Backend β) (s : Backstage β) (w : Write) :
    Queue.Outcome × Backstage β :=
  let (outcome, store) := b.carryOut s.store s.catalog w
  (outcome, { s with store })

def stores (b : Backend β) : Queue.Stores (Backstage β) AtomId Write where
  begin s now worker entry :=
    match s.begin b now entry.item with
    | (.inl outcome, s) => (some outcome, s)
    | (.inr deadline, s) =>
      (none, { s with running := s.running ++ [{ worker, write := entry.item, deadline }] })

def serve (b : Backend β) (id : Nat) (r : Stage β) : Bool × Stage β :=
  match r.queue.holding? id, r.shared.foreground.get? id with
  | some _, some (.requesting w) =>
    let r := r.apply (.request id)
    match r.shared.begin b r.queue.now w with
    | (.inl outcome, shared) => (true, { r with shared }.apply (.giveBack id (outcome.map fun _ => none)))
    | (.inr deadline, shared) =>
      let foreground := shared.foreground.set id (.requested w deadline)
      (true, { r with shared := { shared with foreground } })
  | some _, some (.requested w deadline) =>
    if deadline ≤ r.queue.now then
      let (outcome, shared) := r.shared.carryOut b w
      (true, { r with shared }.apply (.giveBack id (outcome.map fun _ => none)))
    else
      (false, r)
  | some conn, some .done => (true, r.apply (.giveBack id (.ok (some conn))))
  | _, _ => (false, r)

def forgetCall (id : Nat) (r : Stage β) : Stage β :=
  if (r.queue.call? id).isSome then r
  else { r with shared := { r.shared with foreground := r.shared.foreground.erase id } }

def look (b : Backend β) (id : Nat) (r : Stage β) : Bool × Stage β :=
  let (moved, r) := r.lookAt id
  let (served, r) := serve b id r
  (moved || served, forgetCall id r)

def finish (b : Backend β) (e : Running) (r : Stage β) : Stage β :=
  let (outcome, shared) := r.shared.carryOut b e.write
  { r with shared }.apply (.finish e.worker outcome)

end Session

end WriteBehind
