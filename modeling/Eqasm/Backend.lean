import Eqasm.Fault

/-!
# Backends

A backend keeps the state of the qubits. A machine hands it gates on one qubit or on two and asks
it for measurements; it refuses what it cannot do.
-/

namespace Eqasm

/-- What a backend can be asked to do. -/
inductive Call where
  | gate (name : String) (qubit : Nat)
  | pairGate (name : String) (a b : Nat)
  | measure (qubit : Nat)
  deriving DecidableEq, Repr

/-- A simulator of qubits. -/
class Backend (β : Type) where
  /-- Applies a gate to a qubit. -/
  gate : β → String → Nat → Except Fault β
  /-- Applies a gate to an ordered pair of qubits. -/
  pairGate : β → String → Nat → Nat → Except Fault β
  /-- Measures a qubit. The outcome should be 0 or 1. -/
  measure : β → Nat → Except Fault (Nat × β)

end Eqasm
