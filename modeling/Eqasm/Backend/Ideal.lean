import Eqasm.Backend

/-!
# The ideal backend

It ignores gates and measures every qubit as 0.
-/

namespace Eqasm

/-- A backend without state. -/
structure Ideal where
  deriving DecidableEq, Repr

instance : Backend Ideal where
  gate b _ _ := .ok b
  pairGate b _ _ _ := .ok b
  measure b _ := .ok (0, b)

end Eqasm
