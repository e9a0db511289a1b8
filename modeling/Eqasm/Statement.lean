import Eqasm.Instruction

/-!
# Statements

What one line of a program says. Most statements are operations; the others abbreviate two of them.
-/

namespace Eqasm

/-- A statement of a program. -/
inductive Statement where
  | operation (o : Operation)
  /-- `rd <- rs + imm` -/
  | addi (rd rs : Nat) (imm : Int32)
  /-- Continues at the label if `rs` and `rt` are in the relation. -/
  | branch (r : Relation) (rs rt : Nat) (label : String)
  deriving DecidableEq, Repr

/-- The operations that a statement stands for. An addition of a constant loads the constant into
its destination first. -/
def Statement.expand : Statement → List Operation
  | operation o => [o]
  | addi rd rs imm => [.ldi rd imm, .alu .add rd rs rd]
  | branch r rs rt label => [.cmp rs rt, .br (.relation r) label]

end Eqasm
