import Eqasm.Instruction

/-!
# Listings

The written form of instructions: mnemonics in capitals, operands separated by commas, memory
operands as `offset(base)`, labels in front with a colon each. A listing has one instruction to a
line.
-/

namespace Eqasm

/-- The mnemonic of an integer operation. -/
def AluOp.mnemonic : AluOp → String
  | .add => "ADD"
  | .sub => "SUB"
  | .and => "AND"
  | .or => "OR"
  | .xor => "XOR"
  | .mul => "MUL"
  | .div => "DIV"
  | .rem => "REM"

/-- The mnemonic of a load. -/
def LoadOp.mnemonic : LoadOp → String
  | .word => "LW"
  | .signedByte => "LB"
  | .unsignedByte => "LBU"

/-- The mnemonic of a store. -/
def StoreOp.mnemonic : StoreOp → String
  | .word => "SW"
  | .byte => "SB"

/-- The mnemonic of a single-precision operation. -/
def FpuOp.mnemonic : FpuOp → String
  | .add => "FADD.S"
  | .sub => "FSUB.S"
  | .mul => "FMUL.S"
  | .div => "FDIV.S"

/-- The mnemonic of a single-precision comparison. -/
def FcmpOp.mnemonic : FcmpOp → String
  | .eq => "FEQ.S"
  | .lt => "FLT.S"
  | .le => "FLE.S"

/-- The written form of a quantum operation. One without target is written `QNOP`. -/
def MicroOp.text (o : MicroOp) : String :=
  match o.target with
  | .none => "QNOP"
  | .single i => s!"{o.name} s{i}"
  | .pair i => s!"{o.name} t{i}"

/-- Texts in braces, separated by commas. -/
def braced (items : List String) : String :=
  "\x7b" ++ ", ".intercalate items ++ "\x7d"

/-- A memory operand. -/
def addressText (offset : Int32) (base : Nat) : String :=
  s!"{offset.toInt}(r{base})"

/-- The written form of an operation. -/
def Operation.text : Operation → String
  | .nop => "NOP"
  | .stop => "STOP"
  | .qwait imm => s!"QWAIT {imm.toNat}"
  | .qwaitr rs => s!"QWAITR r{rs}"
  | .smis si qubits => s!"SMIS s{si}, " ++ braced (qubits.map toString)
  | .smit ti pairs => s!"SMIT t{ti}, " ++ braced (pairs.map fun p => s!"({p.1}, {p.2})")
  | .not rd rt => s!"NOT r{rd}, r{rt}"
  | .cmp rs rt => s!"CMP r{rs}, r{rt}"
  | .br flag label => s!"BR {flag.name}, {label}"
  | .fbr flag rd => s!"FBR {flag.name}, r{rd}"
  | .fmr rd qs => s!"FMR r{rd}, q{qs}"
  | .ldi rd imm => s!"LDI r{rd}, {imm.toInt}"
  | .ldui rd rs imm => s!"LDUI r{rd}, r{rs}, {imm.toNat}"
  | .alu op rd rs rt => s!"{op.mnemonic} r{rd}, r{rs}, r{rt}"
  | .load op rd rt offset => s!"{op.mnemonic} r{rd}, {addressText offset rt}"
  | .store op rs rt offset => s!"{op.mnemonic} r{rs}, {addressText offset rt}"
  | .fcvtws rd fs => s!"FCVT.W.S r{rd}, f{fs}"
  | .fcvtsw fd rs => s!"FCVT.S.W f{fd}, r{rs}"
  | .flw fd rt offset => s!"FLW f{fd}, {addressText offset rt}"
  | .fsw fs rt offset => s!"FSW f{fs}, {addressText offset rt}"
  | .fpu op fd fs ft => s!"{op.mnemonic} f{fd}, f{fs}, f{ft}"
  | .fcmp op rd fs ft => s!"{op.mnemonic} r{rd}, f{fs}, f{ft}"
  | .bundle pi ops => s!"BS {pi.toNat}, " ++ " | ".intercalate (ops.map MicroOp.text)

/-- The written form of an instruction. -/
def Instruction.text (i : Instruction) : String :=
  String.join (i.labels.map (· ++ ": ")) ++ i.operation.text

/-- The listing of a program. -/
def listing (program : List Instruction) : String :=
  String.join (program.map fun i => i.text ++ "\n")

end Eqasm
