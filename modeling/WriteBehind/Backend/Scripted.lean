import WriteBehind.Backend.Basic

/-!
# A scripted backend

A backend that keeps nothing and fails where it is told to.
-/

namespace WriteBehind

structure Script where
  /-- The connect call that fails, counted from 0, and how. -/
  refusal : Option (Nat × StoreError) := none
  unprepared : Option StoreError := none
  outcome : Queue.Outcome := .ok ()
  connects : Nat := 0

namespace Script

def backend : Backend Script where
  connect s :=
    let t := { s with connects := s.connects + 1 }
    match s.refusal with
    | some (n, e) => (if n = s.connects then .error e else .ok { id := s.connects }, t)
    | none => (.ok { id := s.connects }, t)
  prepare s c := (match s.unprepared with
    | some e => .error e
    | none => .ok c, s)
  carryOut s _ _ := (s.outcome, s)

end Script

end WriteBehind
