import Eqasm.Bank
import Eqasm.Log

/-!
# The log of a register bank

A write is logged with the cell that it left.
-/

namespace Eqasm

/-- The event of a write that left the bank as it is. -/
def Bank.writeEvents (b : Bank) (i : Nat) : List Event :=
  match b.cells[i]? with
  | some c => [⟨.trace, .registers, s!"{b.name}{i} <- {c.toHex}"⟩]
  | none => []

end Eqasm
