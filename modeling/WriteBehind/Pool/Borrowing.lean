import WriteBehind.Pool.Lending

/-!
# Borrowing

What can happen to a pool and to those who borrow from it. Operations are carried out one at a time. A borrower
that waits looks when it is woken, which may be long after its turn has come, or not at all if it gives up
before. Any interleaving is a run.
-/

namespace WriteBehind.Lending

variable {γ τ : Type} [DecidableEq τ]

inductive Move (γ τ : Type) where
  | operate (step : Step γ τ)
  | look (ticket : τ)

def isFresh (l : Lending γ τ) (ticket : τ) : Bool :=
  decide (ticket ∉ l.waiting) && !l.held.contains ticket

def allows (l : Lending γ τ) : Step γ τ → Bool
  | .acquire ticket | .tryAcquire ticket => l.isFresh ticket
  | _ => true

def move (l : Lending γ τ) : Move γ τ → Option (Reply γ × Lending γ τ)
  | .operate step => if l.allows step then some (l.step step) else none
  | .look ticket =>
    if ticket ∈ l.waiting then
      let (loan, l) := l.collect ticket
      some (.loan loan, l)
    else
      none

def run (l : Lending γ τ) : List (Move γ τ) → Option (List (Move γ τ × Reply γ) × Lending γ τ)
  | [] => some ([], l)
  | move :: moves => do
    let (reply, l) ← l.move move
    let (record, l) ← l.run moves
    return ((move, reply) :: record, l)

end WriteBehind.Lending
