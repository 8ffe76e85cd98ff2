import WriteBehind.Error

/-!
# Watermarks

Two depths steer backpressure: at `high` a producer stalls, at `low` it goes on.
-/

namespace WriteBehind

structure Watermarks where
  high : Nat := 1024
  low : Nat := 256
  deriving DecidableEq, Repr

namespace Watermarks

def Valid (w : Watermarks) : Prop := 1 ≤ w.high ∧ w.low ≤ w.high

instance (w : Watermarks) : Decidable w.Valid := inferInstanceAs (Decidable (_ ∧ _))

def validate (w : Watermarks) : Except Error Unit :=
  if w.high = 0 then
    .error (.config "high watermark must be at least 1")
  else if w.high < w.low then
    .error (.config ("low watermark " ++ toString w.low ++ " exceeds high watermark " ++
      toString w.high))
  else
    .ok ()

def of (high low : Nat) : Except Error Watermarks := do
  let w : Watermarks := { high, low }
  w.validate
  return w

theorem validate_eq_ok_iff {w : Watermarks} : w.validate = .ok () ↔ w.Valid := by
  unfold validate Valid
  split
  · simp; omega
  · split
    · simp; omega
    · simp; omega

def isOver (w : Watermarks) (depth : Nat) : Bool := decide (w.high ≤ depth)

def isReleased (w : Watermarks) (depth : Nat) : Bool := decide (depth ≤ w.low)

def text (w : Watermarks) : String :=
  "hi-water=" ++ toString w.high ++ " low-water=" ++ toString w.low

end Watermarks

end WriteBehind
