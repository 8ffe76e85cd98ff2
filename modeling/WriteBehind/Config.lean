import WriteBehind.Watermarks

/-!
# Configuration

What is fixed when a queue starts or a session opens. The watermarks and the stall flag are only
the initial ones: a running queue has setters for them.
-/

namespace WriteBehind

def maxWorkers : Nat := 256

structure QueueConfig where
  workers : Nat := 6
  watermarks : Watermarks := {}
  stall : Bool := true
  deriving DecidableEq, Repr

namespace QueueConfig

def validate (c : QueueConfig) : Except Error Unit :=
  if c.workers = 0 then
    .error (.config "worker_count must be at least 1")
  else if maxWorkers < c.workers then
    .error (.config ("worker_count " ++ toString c.workers ++ " exceeds maximum " ++
      toString maxWorkers))
  else
    c.watermarks.validate

end QueueConfig

structure SessionConfig where
  name : String := "atomio"
  foreground : Nat := 4
  queue : QueueConfig := {}
  deriving DecidableEq, Repr

namespace SessionConfig

def poolSize (c : SessionConfig) : Nat := c.foreground + c.queue.workers

def validate (c : SessionConfig) : Except Error Unit := c.queue.validate

end SessionConfig

end WriteBehind
