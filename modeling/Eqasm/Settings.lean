import Eqasm.Backend.Simulator
import Eqasm.Config
import Eqasm.Decimal.Shortest

/-!
# Settings

What a user chooses for a run: the configuration of the machine, the kind of backend, the seed of
its random stream and the probability of measuring 1.
-/

namespace Eqasm

/-- The kinds of backends that a user can choose. -/
inductive BackendKind where
  | ideal
  | bitFlip
  | random
  deriving DecidableEq, Repr

/-- The name of a kind. -/
def BackendKind.name : BackendKind → String
  | ideal => "ideal"
  | bitFlip => "bitflip"
  | random => "random"

/-- The kind of a name. -/
def BackendKind.ofName? (name : String) : Option BackendKind :=
  [ideal, bitFlip, random].find? (·.name = name)

/-- The choice of a backend. -/
structure BackendSettings where
  kind : BackendKind := .ideal
  seed : UInt64 := 0
  /-- The probability of measuring 1. -/
  one : Float := 0.5

/-- The text of a double. -/
def doubleText (x : Float) : String :=
  (Decimal.Real.ofBits Decimal.double x.toBits.toNat).text

/-- The chosen backend for a number of qubits. Different streams have different random outcomes.
A probability outside of 0 to 1 is refused whether the backend needs it or not. -/
def BackendSettings.build (s : BackendSettings) (qubits : Nat) (stream : UInt64) :
    Except String Simulator :=
  if 0 ≤ s.one ∧ s.one ≤ 1 then
    .ok <| match s.kind with
      | .ideal => .ideal {}
      | .bitFlip => .bitFlip (.zeros qubits)
      | .random => .coin (.ofSeed (s.seed + stream) s.one)
  else
    .error s!"p_one must lie in [0, 1], got {doubleText s.one}"

/-- Everything a user chooses for a run. -/
structure Settings where
  config : Config := {}
  backend : BackendSettings := {}

end Eqasm
