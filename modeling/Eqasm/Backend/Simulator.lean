import Eqasm.Backend.BitFlip
import Eqasm.Backend.Coin
import Eqasm.Backend.Ideal
import Eqasm.Backend.Recording
import Eqasm.Log

/-!
# The choice of a backend

One type for the backends of this library, so that a machine can be built for whichever a user
chooses. The ideal backend alone logs its calls.
-/

namespace Eqasm

/-- One of the backends. -/
inductive Simulator where
  | ideal (b : Ideal)
  | bitFlip (b : BitFlip)
  | coin (b : Coin)
  | recording (b : Recording)

namespace Simulator

instance : Backend Simulator where
  gate
    | ideal b, name, q => return ideal (← Backend.gate b name q)
    | bitFlip b, name, q => return bitFlip (← Backend.gate b name q)
    | coin b, name, q => return coin (← Backend.gate b name q)
    | recording b, name, q => return recording (← Backend.gate b name q)
  pairGate
    | ideal b, name, p, q => return ideal (← Backend.pairGate b name p q)
    | bitFlip b, name, p, q => return bitFlip (← Backend.pairGate b name p q)
    | coin b, name, p, q => return coin (← Backend.pairGate b name p q)
    | recording b, name, p, q => return recording (← Backend.pairGate b name p q)
  measure
    | ideal b, q => do
      let (outcome, b) ← Backend.measure b q
      return (outcome, ideal b)
    | bitFlip b, q => do
      let (outcome, b) ← Backend.measure b q
      return (outcome, bitFlip b)
    | coin b, q => do
      let (outcome, b) ← Backend.measure b q
      return (outcome, coin b)
    | recording b, q => do
      let (outcome, b) ← Backend.measure b q
      return (outcome, recording b)

/-- The events of calls that a backend answers. -/
def events (s : Simulator) (calls : List Call) : List Event :=
  match s with
  | ideal _ => calls.map fun c => ⟨.debug, .backend, message c⟩
  | _ => []
where
  /-- The wording of a call. -/
  message : Call → String
    | .gate name q => s!"apply {name} on qubit {q}"
    | .pairGate name p q => s!"apply {name} on qubit pair ({p}, {q})"
    | .measure q => s!"measure qubit {q}: 0"

end Simulator

end Eqasm
