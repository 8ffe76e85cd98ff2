import WriteBehind.Bench.Round

/-!
# Luck from a seed

A seed decides all that a run leaves to chance.
-/

namespace WriteBehind

/-- The random identity with these bits: six of them tell that it is a random one. -/
def AtomId.ofRandom (high low : UInt64) : AtomId :=
  let high := (high &&& 0xffffffffffff0fff) ||| 0x4000
  let low := (low &&& 0x3fffffffffffffff) ||| 0x8000000000000000
  ⟨BitVec.ofNat 128 (high.toNat * wordSize + low.toNat)⟩

namespace Bench

def scrambled (seed purpose round atom : Nat) : UInt64 :=
  mixHash (mixHash (hash seed) (hash purpose)) (mixHash (hash round) (hash (atom * 2 + 1)))

def Luck.ofSeed (seed : Nat) : Luck where
  id i := .ofRandom (scrambled seed 0 0 i) (scrambled seed 1 0 i)
  strength round i := (scrambled seed 2 round i >>> 11).toFloat / 9007199254740992.0
  valueFirst round i := (scrambled seed 3 round i >>> 32) % 4 == 0

end Bench

end WriteBehind
