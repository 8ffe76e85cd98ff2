/-!
# Entry states

What a caller can ask about an identity. One whose work has drained is not tracked any more and has
no state.
-/

namespace WriteBehind

inductive EntryState where
  | pending
  | inFlight
  | inFlightWithPending
  deriving DecidableEq, Repr

namespace EntryState

def text : EntryState → String
  | pending => "pending"
  | inFlight => "in-flight"
  | inFlightWithPending => "in-flight+pending"

def name : EntryState → String
  | pending => "Pending"
  | inFlight => "InFlight"
  | inFlightWithPending => "InFlightWithPending"

def ofName? (s : String) : Option EntryState :=
  [pending, inFlight, inFlightWithPending].find? fun state => decide (state.name = s)

end EntryState

end WriteBehind
