import WriteBehind.Session.Backstage
import WriteBehind.Session.Report

/-!
# Sessions

A session joins a backend to a queue of writes. Stores and removes are queued and return at once;
their failures come back from the next fence. Other calls borrow a connection and bypass the queue.
Time passes only when it is told to.
-/

namespace WriteBehind

structure Session (β : Type) where
  name : String
  since : Int
  counts : CallCounts := {}
  stage : Session.Stage β

namespace Session

variable {β : Type}

/-- Opens the connections, prepares the backend on one of them and starts the workers. -/
def start (b : Backend β) (config : SessionConfig) (since : Int) (store : β) :
    Except Error (Session β) × β :=
  match config.validate with
  | .error e => (.error e, store)
  | .ok () =>
    match Pool.connect b.connect config.poolSize store with
    | (.error e, store) => (.error e, store)
    | (.ok pool, store) =>
      match pool.acquire (.call 0) with
      | (.waits, _) => (.error .closed, store)
      | (.refused e, _) => (.error e, store)
      | (.lent conn, pool) =>
        match b.prepare store conn with
        | (.error e, store) => (.error (.store e), store)
        | (.ok conn, store) =>
          match Queue.State.start config.queue (pool.giveBack conn) with
          | .error e => (.error e, store)
          | .ok queue =>
            (.ok { name := config.name, since, stage := { queue, shared := { store } } }, store)

inductive Command where
  | store (atom : AtomId)
  /-- A store for the sake of one value. The document holds all values, so the whole atom is written. -/
  | storeValue (atom : AtomId) (key : String)
  | remove (atom : AtomId)
  | storeAndWait (atom : AtomId)
  | barrier
  | close
  | setWatermarks (high low : Nat)
  | direct (write : Write)
  | take

namespace Command

def event (id : Nat) : Command → Queue.Event AtomId Write
  | store atom | storeValue atom _ => .enqueue id atom ⟨atom, .store⟩ false
  | remove atom => .enqueue id atom ⟨atom, .remove⟩ false
  | storeAndWait atom => .enqueue id atom ⟨atom, .store⟩ true
  | barrier => .barrier id
  | close => .close id
  | setWatermarks high low => .setWatermarks id high low
  | direct _ | take => .borrow id

def foreground? : Command → Option Foreground
  | direct w => some (.requesting w)
  | take => some .keeping
  | _ => none

def count (c : CallCounts) : Command → CallCounts
  | store _ | storeAndWait _ => { c with stores := c.stores + 1 }
  | storeValue _ _ => { c with valueStores := c.valueStores + 1 }
  | remove _ => { c with removes := c.removes + 1 }
  | _ => c

end Command

def mapBackstage (s : Session β) (f : Backstage β → Backstage β) : Session β :=
  { s with stage := { s.stage with shared := f s.stage.shared } }

def mapStore (s : Session β) (f : β → β) : Session β :=
  s.mapBackstage fun t => { t with store := f t.store }

def mapCatalog (s : Session β) (f : Catalog → Catalog) : Session β :=
  s.mapBackstage fun t => { t with catalog := f t.catalog }

def apply (s : Session β) (e : Queue.Event AtomId Write) : Session β :=
  { s with stage := s.stage.apply e }

def issue (b : Backend β) (id : Nat) (c : Command) (s : Session β) : Session β :=
  let s := { s with counts := c.count s.counts }
  let s := match c.foreground? with
    | some f => s.mapBackstage fun t => { t with foreground := t.foreground.set id f }
    | none => s
  { s with stage := (look b id (s.stage.apply (c.event id))).2 }

def settle (b : Backend β) (s : Session β) : Session β :=
  { s with stage := s.stage.settle (stores b) (look b) }

def release? (id : Nat) (s : Session β) : Option (Session β) :=
  match s.stage.queue.holding? id, s.stage.shared.foreground.get? id with
  | some _, some .keeping =>
    some (s.mapBackstage fun t => { t with foreground := t.foreground.set id .done })
  | _, _ => none

/-- Lets time pass. The requests of workers whose time has come end, by deadline, then by start. -/
def pass (b : Backend β) (millis : Nat) (s : Session β) : Session β :=
  let r := s.stage.apply (.pass (millis * 1000))
  let (due, later) := r.shared.running.partition fun e => decide (e.deadline ≤ r.queue.now)
  let due := due.mergeSort fun d e => decide (d.deadline ≤ e.deadline)
  { s with
    stage := due.foldl (fun r e => (finish b e r).runWorker (stores b) e.worker)
      { r with shared := { r.shared with running := later } } }

def clear (s : Session β) (since : Int) : Session β :=
  { s with since, counts := {} }.apply .clear

def store (s : Session β) : β := s.stage.shared.store

def catalog (s : Session β) : Catalog := s.stage.shared.catalog

def queue (s : Session β) : Queue.State AtomId Write := s.stage.queue

def isConnected (b : Backend β) (s : Session β) : Bool := !s.queue.closed && b.isHealthy s.store

def stats (s : Session β) : SessionStats where
  name := s.name
  since := s.since
  counts := s.counts
  queue := s.queue.snapshot

def text (s : Session β) : String :=
  "AtomStorage \x7b name: " ++ Quoted.quote s.name ++ ", queue: " ++ s.queue.text ++ ", .. \x7d"

/-- Deleting a value is not supported. -/
def deleteValue (_ : Session β) (_ : AtomId) (key : String) : Except Error Unit :=
  .error (.notImplemented ("delete_value(" ++ key ++ ")"))

def getValue (_ : Session β) (_ : AtomId) (key : String) : Except Error Json.Value :=
  .error (.notImplemented ("get_value(" ++ key ++ ")"))

def forget (s : Session β) : Session β := { s with stage := { s.stage with notices := [] } }

end Session

end WriteBehind
