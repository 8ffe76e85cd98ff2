/-!
# Sequence numbers

A queue numbers its entries in the order in which they were created, from 1. The number 0 stands
before every entry, so it is the target of a fence over an empty history.
-/

namespace WriteBehind

structure Sequence where
  val : Nat
  deriving DecidableEq, Repr

namespace Sequence

def zero : Sequence := ⟨0⟩

instance : Inhabited Sequence := ⟨zero⟩

def next (s : Sequence) : Sequence := ⟨s.val + 1⟩

instance : LT Sequence := ⟨fun a b => a.val < b.val⟩
instance : LE Sequence := ⟨fun a b => a.val ≤ b.val⟩

instance (a b : Sequence) : Decidable (a < b) := inferInstanceAs (Decidable (a.val < b.val))
instance (a b : Sequence) : Decidable (a ≤ b) := inferInstanceAs (Decidable (a.val ≤ b.val))

theorem lt_def {a b : Sequence} : a < b ↔ a.val < b.val := Iff.rfl

theorem le_def {a b : Sequence} : a ≤ b ↔ a.val ≤ b.val := Iff.rfl

theorem lt_next (s : Sequence) : s < s.next := Nat.lt_succ_self s.val

def text (s : Sequence) : String := "#" ++ toString s.val

end Sequence

end WriteBehind
