import WriteBehind.Decimal.Dyadic

/-!
# 64-bit counters

A counter that can run over is kept modulo `2 ^ 64`.
-/

namespace WriteBehind

def wordSize : Nat := 0x10000000000000000

def maxWord : Nat := wordSize - 1

def wrap (n : Nat) : Nat := n % wordSize

theorem wrap_lt (n : Nat) : wrap n < wordSize := Nat.mod_lt n (by decide)

theorem wrap_of_lt {n : Nat} (h : n < wordSize) : wrap n = n := Nat.mod_eq_of_lt h

def wordToFloat (n : Nat) : Float := n.toUInt64.toFloat

/-- The least word that a binary64 number does not exceed. What is not a number counts as 0, and what
is beyond all words as the greatest of them. -/
def ceilToWord (x : Float) : Nat :=
  match Decimal.Dyadic.ofFloat? x with
  | some d => min d.ceil maxWord
  | none => if x.isNaN ∨ x < 0 then 0 else maxWord

end WriteBehind
