import WriteBehind.Pool.Basic
import WriteBehind.Table

/-!
# Lending

A pool together with those that hold its connections, and the connections that closing has given away:
every connection is in one of these three places. Borrowers are known by tickets. After each step the
borrowers whose turn has come collect, in the order in which they came.
-/

namespace WriteBehind

structure Lending (γ τ : Type) where
  pool : Pool γ τ
  held : Table τ γ := {}
  waiting : List τ := []
  surrendered : List γ := []
  deriving DecidableEq

namespace Lending

variable {γ τ : Type} [DecidableEq τ]

inductive Step (γ τ : Type) where
  | acquire (ticket : τ)
  | tryAcquire (ticket : τ)
  | release (ticket : τ)
  | use (ticket : τ) (effect : γ → γ)
  | cancel (ticket : τ)
  | close

inductive Reply (γ : Type) where
  | loan (loan : Loan γ)
  | attempt (connection : Option γ)
  | held (connection : Option γ)
  | cancelled (waiting : Bool)
  | surrendered (connections : List γ)
  deriving DecidableEq

def note (l : Lending γ τ) (ticket : τ) : Loan γ → Lending γ τ
  | .lent c => { l with held := l.held.set ticket c }
  | .waits => { l with waiting := l.waiting ++ [ticket] }
  | .refused _ => l

def step (l : Lending γ τ) : Step γ τ → Reply γ × Lending γ τ
  | .acquire ticket =>
    let (loan, pool) := l.pool.acquire ticket
    (.loan loan, { l with pool }.note ticket loan)
  | .tryAcquire ticket =>
    match l.pool.tryAcquire with
    | (some c, pool) => (.attempt (some c), { l with pool, held := l.held.set ticket c })
    | (none, pool) => (.attempt none, { l with pool })
  | .release ticket =>
    match l.held.get? ticket with
    | some c => (.held (some c), { l with pool := l.pool.giveBack c, held := l.held.erase ticket })
    | none => (.held none, l)
  | .use ticket effect =>
    match l.held.get? ticket with
    | some c => (.held (some (effect c)), { l with held := l.held.set ticket (effect c) })
    | none => (.held none, l)
  | .cancel ticket =>
    if ticket ∈ l.waiting then
      (.cancelled true,
        { l with pool := l.pool.cancel ticket, waiting := l.waiting.erase ticket })
    else
      (.cancelled false, l)
  | .close =>
    let (given, pool) := l.pool.close
    (.surrendered given, { l with pool, surrendered := l.surrendered ++ given })

def collect (l : Lending γ τ) (ticket : τ) : Loan γ × Lending γ τ :=
  match l.pool.collect ticket with
  | (.waits, pool) => (.waits, { l with pool })
  | (loan, pool) =>
    (loan, { l with pool, waiting := l.waiting.erase ticket }.note ticket loan)

def collectAll : List τ → Lending γ τ → List (τ × Loan γ) × Lending γ τ
  | [], l => ([], l)
  | ticket :: rest, l =>
    match l.collect ticket with
    | (.waits, l) => collectAll rest l
    | (loan, l) =>
      let (found, l) := collectAll rest l
      ((ticket, loan) :: found, l)

def settle (l : Lending γ τ) : List (τ × Loan γ) × Lending γ τ := l.collectAll l.waiting

end Lending

end WriteBehind
