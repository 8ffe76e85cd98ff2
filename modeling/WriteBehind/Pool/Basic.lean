import WriteBehind.Error

/-!
# The connection pool

A pool lends a fixed set of connections. An idle connection is lent at once, the one that came back
last first. When none is free the borrower waits; waiting borrowers are served in the order in which
they came. A connection that comes back while somebody waits is promised to the first who waits: its
permit is spoken for, and that borrower collects a connection when it next looks. Closing refuses all
who wait and gives the idle connections away; the permits stay as they are.
-/

namespace WriteBehind

structure Pool (γ τ : Type) where
  /-- Connections that nobody holds, the one that came back last first. -/
  idle : List γ
  /-- Permits that are neither held nor promised. -/
  free : Nat
  /-- Borrowers that wait, in order of arrival; in a closed pool, those not refused yet. -/
  waiters : List τ := []
  /-- Borrowers whose turn has come and that have not collected yet. -/
  promised : List τ := []
  closed : Bool := false
  capacity : Nat
  deriving DecidableEq, Repr

inductive Loan (γ : Type) where
  | lent (connection : γ)
  | waits
  | refused (error : Error)
  deriving DecidableEq, Repr

namespace Pool

variable {γ τ : Type}

def ofConnections (connections : List γ) : Except Error (Pool γ τ) :=
  if connections.isEmpty then .error (.poolExhausted 0)
  else .ok {
    idle := connections.reverse
    free := connections.length
    capacity := connections.length }

def openAll {σ : Type} (connect : σ → Except StoreError γ × σ) :
    Nat → σ → Except StoreError (List γ) × σ
  | 0, s => (.ok [], s)
  | n + 1, s =>
    match connect s with
    | (.error e, s) => (.error e, s)
    | (.ok c, s) =>
      match openAll connect n s with
      | (.error e, s) => (.error e, s)
      | (.ok cs, s) => (.ok (c :: cs), s)

def connect {σ : Type} (connect : σ → Except StoreError γ × σ) (capacity : Nat) (s : σ) :
    Except Error (Pool γ τ) × σ :=
  if capacity = 0 then (.error (.poolExhausted 0), s)
  else
    match openAll connect capacity s with
    | (.error e, s) => (.error (.store e), s)
    | (.ok cs, s) => (ofConnections cs, s)

def size (p : Pool γ τ) : Nat := p.idle.length

def returnPermit (p : Pool γ τ) : Pool γ τ :=
  match p.closed, p.waiters with
  | false, first :: others => { p with waiters := others, promised := p.promised ++ [first] }
  | _, _ => { p with free := p.free + 1 }

def checkout (p : Pool γ τ) : Except Error γ × Pool γ τ :=
  match p.idle with
  | [] => (.error (.internal "pool permit acquired with no idle connection"), p.returnPermit)
  | c :: idle => (.ok c, { p with idle })

def tryAcquire (p : Pool γ τ) : Option γ × Pool γ τ :=
  if p.closed || p.free == 0 then (none, p)
  else
    match checkout { p with free := p.free - 1 } with
    | (.ok c, p) => (some c, p)
    | (.error _, p) => (none, p)

def lend (p : Pool γ τ) : Loan γ × Pool γ τ :=
  match p.checkout with
  | (.ok c, p) => (.lent c, p)
  | (.error e, p) => (.refused e, p)

def acquire (p : Pool γ τ) (ticket : τ) : Loan γ × Pool γ τ :=
  if p.closed then (.refused .closed, p)
  else if p.free = 0 then (.waits, { p with waiters := p.waiters ++ [ticket] })
  else lend { p with free := p.free - 1 }

def giveBack (p : Pool γ τ) (connection : γ) : Pool γ τ :=
  returnPermit { p with idle := connection :: p.idle }

variable [DecidableEq τ]

/-- A borrower that waits looks whether its turn has come. In a closed pool it is refused, and a permit
promised to it is free again. -/
def collect (p : Pool γ τ) (ticket : τ) : Loan γ × Pool γ τ :=
  if p.closed then
    (.refused .closed,
      if ticket ∈ p.promised then
        { p with promised := p.promised.erase ticket, free := p.free + 1 }
      else { p with waiters := p.waiters.erase ticket })
  else if ticket ∈ p.promised then lend { p with promised := p.promised.erase ticket }
  else (.waits, p)

def cancel (p : Pool γ τ) (ticket : τ) : Pool γ τ :=
  if ticket ∈ p.promised then returnPermit { p with promised := p.promised.erase ticket }
  else { p with waiters := p.waiters.erase ticket }

omit [DecidableEq τ] in
/-- Refuses everybody from now on and gives the idle connections away, in the order in which they came
back. Those who wait are refused when they next look; connections that are lent still come back. -/
def close (p : Pool γ τ) : List γ × Pool γ τ :=
  (p.idle.reverse, { p with idle := [], closed := true })

omit [DecidableEq τ] in
def text (p : Pool γ τ) : String :=
  "ConnectionPool \x7b available: " ++ toString p.free ++ ", capacity: " ++ toString p.capacity ++
    " \x7d"

end Pool

end WriteBehind
