import WriteBehind.Queue.Calls
import WriteBehind.Queue.Workers

/-!
# Steps of a queue

A queue changes in small steps: what its owner and its callers do, what its workers do, and how stores
end. Any interleaving of enabled steps is a run. A step that is not enabled gives nothing.
-/

namespace WriteBehind.Queue

variable {κ ι : Type} [DecidableEq κ] [Named κ]

def issue (s : State κ ι) (id : Nat) (effect : Effect κ ι) : Option (Effect κ ι) :=
  if s.abandoned ∨ (s.call? id).isSome then none else some effect

def step (s : State κ ι) : Event κ ι → Option (Effect κ ι)
  | .enqueue id key item fenced => issue s id (s.enqueue id key item fenced)
  | .tryEnqueue id key item => issue s id (s.tryEnqueue id key item)
  | .barrier id => issue s id (s.barrier id)
  | .close id => issue s id (s.close id)
  | .setWatermarks id high low => issue s id (s.setWatermarks id high low)
  | .borrow id => issue s id (s.borrow id)
  | .request id => s.request id
  | .giveBack id result => s.giveBack id result
  | .stall on => some ({ s with stalling := on }, [])
  | .clear => some ({ s with counters := s.counters.clear }, [])
  | .closePool =>
    let (given, pool) := s.pool.close
    some ({ s with pool }, [.surrendered given])
  | .abandon => some ({ s with abandoned := true }, [])
  | .pass micros => some ({ s with now := s.now + micros }, [])
  | .work w => s.work w
  | .finish w outcome => s.finish w outcome
  | .look id => s.look id
  | .expire =>
    if s.abandoned && s.calls.isEmpty && !s.closed then some (s.shutDown, [.closed]) else none

def run (s : State κ ι) : List (Event κ ι) → Option (Effect κ ι)
  | [] => some (s, [])
  | e :: rest => do
    let (s, noticed) ← step s e
    let (s, later) ← run s rest
    return (s, noticed ++ later)

end WriteBehind.Queue
