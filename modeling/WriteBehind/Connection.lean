/-!
# Connections
-/

namespace WriteBehind

structure Connection where
  id : Nat
  requests : Nat := 0
  deriving DecidableEq, Repr, Inhabited

def Connection.use (c : Connection) : Connection := { c with requests := c.requests + 1 }

end WriteBehind
