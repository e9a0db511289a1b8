import Eqasm.Backend
import Eqasm.Random.ChaCha

/-!
# The random backend

It ignores gates and tosses a coin for every measurement. The coins are a function of the seed and
of how many measurements came before.
-/

namespace Eqasm

/-- A biased coin. -/
structure Coin where
  stream : Random.Stream
  /-- The probability of measuring 1. -/
  one : Float

namespace Coin

/-- A coin that shows 1 with a given probability, brought into the range from 0 to 1. Something
that is no number counts as 0. -/
def ofSeed (seed : UInt64) (one : Float) : Coin :=
  ⟨.ofSeed seed, if one.isNaN then 0 else if one < 0 then 0 else if 1 < one then 1 else one⟩

/-- Tosses the coin. A coin that always shows 1 needs no random bits. -/
def toss (c : Coin) : Nat × Coin :=
  if c.one == 1 then (1, c)
  else
    let (bits, stream) := c.stream.next
    let threshold := (c.one * 18446744073709551616).toUInt64
    (if bits < threshold then 1 else 0, { c with stream })

instance : Backend Coin where
  gate c _ _ := .ok c
  pairGate c _ _ _ := .ok c
  measure c _ := .ok c.toss

end Coin

end Eqasm
