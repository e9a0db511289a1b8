import Eqasm.Instruction

/-!
# Keywords

The reserved words of programs: the mnemonics of the instructions, those of the abbreviations that
stand for one or two instructions, and the two words of quantum bundles.
-/

namespace Eqasm

/-- A reserved word. -/
inductive Keyword where
  | nop | stop | qwait | qwaitr | smis | smit | not | cmp | br | fbr | fmr | ldi | ldui
  | alu (op : AluOp)
  | load (op : LoadOp)
  | store (op : StoreOp)
  | fcvtws | fcvtsw | flw | fsw
  | fpu (op : FpuOp)
  | fcmp (op : FcmpOp)
  /-- Adds a constant. -/
  | addi
  /-- The two spellings of a jump. -/
  | bra | goto
  /-- A jump that is never taken. -/
  | brn
  /-- Compares two registers and branches if they are in the relation. -/
  | branch (r : Relation)
  /-- A quantum operation that does nothing. -/
  | qnop
  /-- Starts a quantum bundle. -/
  | bs
  deriving DecidableEq, Repr

namespace Keyword

/-- Every keyword. -/
def all : List Keyword :=
  [nop, stop, qwait, qwaitr, smis, smit, not, cmp, br, fbr, fmr, ldi, ldui, alu .add, alu .sub,
    alu .and, alu .or, alu .xor, alu .mul, alu .div, alu .rem, load .word, load .signedByte,
    load .unsignedByte, store .word, store .byte, fcvtws, fcvtsw, flw, fsw, fpu .add, fpu .sub,
    fpu .mul, fpu .div, fcmp .eq, fcmp .lt, fcmp .le, addi, bra, goto, brn, branch .eq, branch .ne,
    branch .lt, branch .le, branch .gt, branch .ge, branch .ltu, branch .leu, branch .gtu,
    branch .geu, qnop, bs]

/-- The spelling of a keyword in lower case. -/
def spelling : Keyword → String
  | nop => "nop"
  | stop => "stop"
  | qwait => "qwait"
  | qwaitr => "qwaitr"
  | smis => "smis"
  | smit => "smit"
  | not => "not"
  | cmp => "cmp"
  | br => "br"
  | fbr => "fbr"
  | fmr => "fmr"
  | ldi => "ldi"
  | ldui => "ldui"
  | alu .add => "add"
  | alu .sub => "sub"
  | alu .and => "and"
  | alu .or => "or"
  | alu .xor => "xor"
  | alu .mul => "mul"
  | alu .div => "div"
  | alu .rem => "rem"
  | load .word => "lw"
  | load .signedByte => "lb"
  | load .unsignedByte => "lbu"
  | store .word => "sw"
  | store .byte => "sb"
  | fcvtws => "fcvt.w.s"
  | fcvtsw => "fcvt.s.w"
  | flw => "flw"
  | fsw => "fsw"
  | fpu .add => "fadd.s"
  | fpu .sub => "fsub.s"
  | fpu .mul => "fmul.s"
  | fpu .div => "fdiv.s"
  | fcmp .eq => "feq.s"
  | fcmp .lt => "flt.s"
  | fcmp .le => "fle.s"
  | addi => "addi"
  | bra => "bra"
  | goto => "goto"
  | brn => "brn"
  | branch .eq => "beq"
  | branch .ne => "bne"
  | branch .lt => "blt"
  | branch .le => "ble"
  | branch .gt => "bgt"
  | branch .ge => "bge"
  | branch .ltu => "bltu"
  | branch .leu => "bleu"
  | branch .gtu => "bgtu"
  | branch .geu => "bgeu"
  | qnop => "qnop"
  | bs => "bs"

/-- The keyword of a word in lower case. -/
def ofWord? (word : String) : Option Keyword :=
  all.find? (·.spelling = word)

end Keyword

end Eqasm
