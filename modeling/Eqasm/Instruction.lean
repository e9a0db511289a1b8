import Eqasm.Flag

/-!
# Instructions

The instruction set of the control processor. An operation carries just the operands that it needs;
registers and qubits are given by number and checked when the operation is executed. An instruction
is an operation with the labels that name its place in a program.
-/

namespace Eqasm

/-- Operations on two general purpose registers, `rd <- rs op rt`. -/
inductive AluOp where
  | add | sub | and | or | xor | mul | div | rem
  deriving DecidableEq, Repr

/-- What is loaded from memory: a word, or a byte that is sign- or zero-extended. -/
inductive LoadOp where
  | word | signedByte | unsignedByte
  deriving DecidableEq, Repr

/-- What is stored to memory: a word, or the low byte of a register. -/
inductive StoreOp where
  | word | byte
  deriving DecidableEq, Repr

/-- Single-precision operations, `fd <- fs op ft`. -/
inductive FpuOp where
  | add | sub | mul | div
  deriving DecidableEq, Repr

/-- Single-precision comparisons. The result is 1 or 0. -/
inductive FcmpOp where
  | eq | lt | le
  deriving DecidableEq, Repr

/-- The target register of a quantum operation. -/
inductive Target where
  /-- No qubit is addressed. -/
  | none
  /-- The qubits in register `s<i>`. -/
  | single (i : Nat)
  /-- The pairs in register `t<i>`. -/
  | pair (i : Nat)
  deriving DecidableEq, Repr

/-- One of the quantum operations of a bundle. -/
structure MicroOp where
  name : String
  target : Target
  deriving DecidableEq, Repr

/-- The quantum operation that does nothing. -/
def MicroOp.qnop : MicroOp :=
  ⟨"qnop", .none⟩

/-- Whether a quantum operation measures its qubits. -/
def MicroOp.isMeasurement (o : MicroOp) : Bool :=
  o.name = "measure" || o.name = "measz"

/-- What an instruction does. -/
inductive Operation where
  | nop
  /-- Ends the run. -/
  | stop
  /-- Waits; timing is not modelled. -/
  | qwait (imm : UInt32)
  /-- Waits as long as `rs` says; timing is not modelled. -/
  | qwaitr (rs : Nat)
  /-- `s<si> <- qubits` -/
  | smis (si : Nat) (qubits : List Nat)
  /-- `t<ti> <- pairs` -/
  | smit (ti : Nat) (pairs : List (Nat × Nat))
  /-- `rd <- not rt` -/
  | not (rd rt : Nat)
  /-- Sets the condition flags. -/
  | cmp (rs rt : Nat)
  /-- Continues at the label if the flag is set. -/
  | br (flag : Flag) (label : String)
  /-- `rd <- flag` -/
  | fbr (flag : Flag) (rd : Nat)
  /-- `rd <-` the last measurement of qubit `qs` -/
  | fmr (rd qs : Nat)
  /-- `rd <- imm` -/
  | ldi (rd : Nat) (imm : Int32)
  /-- `rd <- imm[14:0] : rs[16:0]` -/
  | ldui (rd rs : Nat) (imm : UInt32)
  | alu (op : AluOp) (rd rs rt : Nat)
  /-- `rd <- memory[rt + offset]` -/
  | load (op : LoadOp) (rd rt : Nat) (offset : Int32)
  /-- `memory[rt + offset] <- rs` -/
  | store (op : StoreOp) (rs rt : Nat) (offset : Int32)
  /-- `rd <- fs` rounded to an integer -/
  | fcvtws (rd fs : Nat)
  /-- `fd <- rs` rounded to single precision -/
  | fcvtsw (fd rs : Nat)
  /-- `fd <- memory[rt + offset]` -/
  | flw (fd rt : Nat) (offset : Int32)
  /-- `memory[rt + offset] <- fs` -/
  | fsw (fs rt : Nat) (offset : Int32)
  | fpu (op : FpuOp) (fd fs ft : Nat)
  | fcmp (op : FcmpOp) (rd fs ft : Nat)
  /-- Quantum operations that are issued together, `pi` cycles after the previous ones. -/
  | bundle (pi : UInt32) (ops : List MicroOp)
  deriving DecidableEq, Repr

/-- An operation and the labels of its place in the program. -/
structure Instruction where
  labels : List String := []
  operation : Operation
  deriving DecidableEq, Repr

/-- The label that an operation may branch to. -/
def Operation.branchLabel? : Operation → Option String
  | .br _ label => some label
  | _ => none

end Eqasm
