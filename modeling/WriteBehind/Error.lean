import WriteBehind.Sequence

/-!
# Failures

Two layers: a `StoreError` is what a backend reports for one request, an `Error` is what the queue
and the session return to their callers. A constructor is a cause; its wording is in `message`.
-/

namespace WriteBehind

inductive StoreError where
  | backend (text : String)
  | connectionFailed (text : String)
  | timeout
  | encoding (text : String)
  | crashed (text : String)
  deriving DecidableEq, Repr

namespace StoreError

def message : StoreError → String
  | backend text => "backend error: " ++ text
  | connectionFailed text => "connection failed: " ++ text
  | timeout => "request timeout"
  | encoding text => "encoding error: " ++ text
  | crashed text => "store primitive panicked: " ++ text

def isRetryable : StoreError → Bool
  | timeout | connectionFailed _ => true
  | _ => false

end StoreError

inductive Error where
  | config (text : String)
  | poolExhausted (requested : Nat)
  | store (cause : StoreError)
  /-- A store failed earlier; a fence reports it now. -/
  | deferred (key : String) (sequence : Sequence) (cause : StoreError)
  | queueFull (depth high : Nat)
  | closed
  | notImplemented (feature : String)
  | internal (text : String)
  deriving DecidableEq, Repr

namespace Error

def message : Error → String
  | config text => "configuration error: " ++ text
  | poolExhausted requested =>
    "connection pool exhausted: requested capacity " ++ toString requested
  | store cause => cause.message
  | deferred key sequence cause =>
    "deferred store failure for " ++ key ++ " (entry " ++ sequence.text ++ "): " ++ cause.message
  | queueFull depth high =>
    "write-back queue full: depth " ++ toString depth ++ " at high watermark " ++ toString high
  | closed => "storage session is closed"
  | notImplemented feature => "not implemented: " ++ feature
  | internal text => "internal error: " ++ text

def storeError? : Error → Option StoreError
  | store cause | deferred _ _ cause => some cause
  | _ => none

def source? : Error → Option StoreError
  | deferred _ _ cause => some cause
  | _ => none

def isDeferred : Error → Bool
  | deferred .. => true
  | _ => false

def isFatal : Error → Bool
  | config _ | poolExhausted _ | closed | internal _ => true
  | _ => false

end Error

end WriteBehind
