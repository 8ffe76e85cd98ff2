/-!
# The bell of the workers

An idle worker asks to be woken, looks for an entry, and sleeps if there is none. One that has found an
entry stays on the list of those who have asked until the entry has retired. It may be woken in the
meantime, and then wakes somebody else when it leaves the list.
-/

namespace WriteBehind.Queue

structure Bell where
  /-- The bell was rung while nobody was on the list. The next who asks is awake at once. -/
  permit : Bool := false
  waiters : List Nat := []
  /-- Who was woken alone and has not noticed yet, in the order of waking. -/
  woken : List Nat := []
  /-- Who has asked and is about to look for an entry. -/
  alert : List Nat := []
  deriving DecidableEq, Repr

namespace Bell

def ringOne (b : Bell) : Bell :=
  match b.waiters with
  | [] => { b with permit := true }
  | w :: waiters => { b with waiters, woken := b.woken ++ [w] }

def ringAll (b : Bell) : Bell := { b with waiters := [] }

def ask (b : Bell) (w : Nat) : Bell :=
  let b := { b with woken := b.woken.filter (· ≠ w), alert := b.alert ++ [w] }
  if b.permit then { b with permit := false } else { b with waiters := b.waiters ++ [w] }

def look (b : Bell) (w : Nat) : Bell := { b with alert := b.alert.filter (· ≠ w) }

def without (b : Bell) (w : Nat) : Bell :=
  { b with waiters := b.waiters.filter (· ≠ w), woken := b.woken.filter (· ≠ w) }

/-- A worker leaves the list. What woke it wakes the next one, if it has not noticed it. -/
def leave (b : Bell) (w : Nat) : Bell :=
  if w ∈ b.woken then (b.without w).ringOne else b.without w

end Bell

end WriteBehind.Queue
