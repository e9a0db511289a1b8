import Eqasm.Backend
import Eqasm.Bank
import Eqasm.Instruction
import Eqasm.Memory
import Eqasm.TargetRegisters

/-!
# The datapath

What instructions work on: registers, memory, flags, measurement results and the qubits of the
backend. `Datapath.execute` carries an operation out and says where the program goes on.

Operations are carried out one step after the other, and what was done before a fault stays done
(`carryOut`). A bundle first looks all its target registers up (`resolve`) and then makes the calls
in order (`issue`); a call that goes wrong leaves the effect of the calls before it.
-/

namespace Eqasm

/-- Registers, memory, flags, measurement results and backend. -/
structure Datapath (β : Type) where
  general : Bank
  floating : Bank
  targets : TargetRegisters
  memory : Memory
  flags : Flags
  /-- The last outcome for each qubit, 0 before the first measurement. -/
  results : Array Nat
  backend : β

/-- Where a program goes on. -/
inductive Flow where
  | next
  | jump (label : String)
  | stop
  deriving DecidableEq, Repr

/-- Where a program goes on behind an operation that is executed with the given flags. -/
def Operation.flow (flags : Flags) : Operation → Flow
  | .stop => .stop
  | .br flag label => if flags.get flag then .jump label else .next
  | _ => .next

/-- An integer operation on two cells. -/
def AluOp.apply : AluOp → Cell → Cell → Except Fault Cell
  | .add => Cell.add
  | .sub => Cell.sub
  | .and => Cell.and
  | .or => Cell.or
  | .xor => Cell.xor
  | .mul => Cell.mul
  | .div => Cell.div
  | .rem => Cell.rem

/-- A single-precision operation. -/
def FpuOp.apply : FpuOp → Float32 → Float32 → Float32
  | .add, x, y => x + y
  | .sub, x, y => x - y
  | .mul, x, y => x * y
  | .div, x, y => x / y

/-- A single-precision comparison. -/
def FcmpOp.holds : FcmpOp → Float32 → Float32 → Bool
  | .eq, x, y => x == y
  | .lt, x, y => x < y
  | .le, x, y => x ≤ y

/-- The calls of a quantum operation, in order. A measurement of a pair measures both qubits. -/
def MicroOp.calls (t : TargetRegisters) (o : MicroOp) : Except Fault (List Call) :=
  match o.target with
  | .none => .ok []
  | .single i => do
    return (← t.readSingle i).map fun q => if o.isMeasurement then .measure q else .gate o.name q
  | .pair i => do
    return (← t.readPair i).flatMap fun (p, q) =>
      if o.isMeasurement then [.measure p, .measure q] else [.pairGate o.name p q]

/-- The calls of a bundle, in order. -/
def resolve (t : TargetRegisters) : List MicroOp → Except Fault (List Call)
  | [] => .ok []
  | o :: rest => do
    let calls ← o.calls t
    return calls ++ (← resolve t rest)

namespace Datapath

variable {β : Type}

/-- Puts a cell into a general purpose register. -/
def writeGeneral (s : Datapath β) (rd : Nat) (c : Cell) : Except Fault (Datapath β) := do
  return { s with general := ← s.general.write rd c }

/-- Puts a number that is not negative into a general purpose register. -/
def writeUnsigned (s : Datapath β) (rd n : Nat) : Except Fault (Datapath β) := do
  s.writeGeneral rd (← Cell.ofUnsigned n s.general.width)

/-- Puts a number into a general purpose register. -/
def writeSigned (s : Datapath β) (rd : Nat) (v : Int) : Except Fault (Datapath β) := do
  s.writeGeneral rd (← Cell.ofSigned v s.general.width)

/-- Puts a cell into a floating point register. -/
def writeFloating (s : Datapath β) (fd : Nat) (c : Cell) : Except Fault (Datapath β) := do
  return { s with floating := ← s.floating.write fd c }

/-- The address at a distance from the base in register `rt`, a sum of signed 64-bit numbers. -/
def address (s : Datapath β) (rt : Nat) (offset : Int32) : Except Fault Nat := do
  let base ← s.general.read rt
  let a := Int.bmod (base.bits + offset.toInt) 0x10000000000000000
  if 0 ≤ a then return a.toNat else throw (.addressOutOfRange a s.memory.size)

/-- The cell that a load puts into a register. -/
def loaded (s : Datapath β) (a : Nat) : LoadOp → Except Fault Cell
  | .word => return .word (← s.memory.readWord a)
  | .signedByte => do (Cell.byte (← s.memory.readByte a)).signExtend s.general.width
  | .unsignedByte => do (Cell.byte (← s.memory.readByte a)).zeroExtend s.general.width

/-- The last outcome for a qubit. -/
def result (s : Datapath β) (q : Nat) : Except Fault Nat :=
  match s.results[q]? with
  | some outcome => .ok outcome
  | none => .error (.qubitOutOfRange q s.results.size)

/-! ## Operations on registers and memory -/

open Work

/-- Works on data memory. -/
def onMemory (w : Work Memory Fault Unit) : Work (Datapath β) Fault Unit :=
  w.part (·.memory) fun s memory => { s with memory }

/-- Works on the target registers. -/
def onTargets (w : Work TargetRegisters Fault Unit) : Work (Datapath β) Fault Unit :=
  w.part (·.targets) fun s targets => { s with targets }

/-- Puts a cell into data memory. -/
def store (a : Nat) (c : Cell) : StoreOp → Work (Datapath β) Fault Unit
  | .word => do
    let w ← look fun _ => c.toWord
    onMemory (Memory.writeWord a w)
  | .byte => onMemory (Memory.writeByte a c.lowByte)

/-- Carries an operation other than a bundle out. -/
def carryOut : Operation → Work (Datapath β) Fault Unit
  | .nop | .stop | .qwait _ | .br _ _ | .bundle _ _ => return
  | .qwaitr rs => do
    let _ ← look (·.general.read rs)
  | .smis si qubits => onTargets (TargetRegisters.setSingle si qubits)
  | .smit ti pairs => onTargets (TargetRegisters.setPair ti pairs)
  | .not rd rt => do
    let c ← look (·.general.read rt)
    attempt (·.writeGeneral rd c.not)
  | .cmp rs rt => do
    let a ← look (·.general.read rs)
    let b ← look (·.general.read rt)
    change fun s => { s with flags := s.flags.compare a b }
  | .fbr flag rd => attempt fun s => s.writeUnsigned rd (if s.flags.get flag then 1 else 0)
  | .fmr rd qs => do
    let outcome ← look (·.result qs)
    attempt (·.writeUnsigned rd outcome)
  | .ldi rd imm => attempt (·.writeSigned rd imm.toInt)
  | .ldui rd rs imm => do
    let low ← look (·.general.read rs)
    let c ← look fun _ => low.splice 17 32 imm.toNat
    attempt (·.writeGeneral rd c)
  | .alu op rd rs rt => do
    let a ← look (·.general.read rs)
    let b ← look (·.general.read rt)
    let c ← look fun _ => op.apply a b
    attempt (·.writeGeneral rd c)
  | .load op rd rt offset => do
    let a ← look (·.address rt offset)
    let c ← look (·.loaded a op)
    attempt (·.writeGeneral rd c)
  | .store op rs rt offset => do
    let a ← look (·.address rt offset)
    let c ← look (·.general.read rs)
    store a c op
  | .fcvtws rd fs => do
    let x ← look (·.floating.readSingle fs)
    attempt (·.writeSigned rd x.toInt32.toInt)
  | .fcvtsw fd rs => do
    let c ← look (·.general.read rs)
    attempt (·.writeFloating fd (.ofSingle (Int64.ofInt c.signed).toFloat32))
  | .flw fd rt offset => do
    let a ← look (·.address rt offset)
    let w ← look (·.memory.readWord a)
    attempt (·.writeFloating fd (.word w))
  | .fsw fs rt offset => do
    let a ← look (·.address rt offset)
    let c ← look (·.floating.read fs)
    store a c .word
  | .fpu op fd fs ft => do
    let a ← look (·.floating.read fs)
    let b ← look (·.floating.read ft)
    let c ← look fun _ => Cell.single op.apply a b
    attempt (·.writeFloating fd c)
  | .fcmp op rd fs ft => do
    let x ← look (·.floating.readSingle fs)
    let y ← look (·.floating.readSingle ft)
    attempt (·.writeUnsigned rd (if op.holds x y then 1 else 0))

/-! ## Quantum operations -/

variable [Backend β]

/-- Makes one call. -/
def perform (s : Datapath β) : Call → Datapath β × Except Fault Unit
  | .gate name q =>
    match Backend.gate s.backend name q with
    | .ok b => ({ s with backend := b }, .ok ())
    | .error cause => (s, .error cause)
  | .pairGate name p q =>
    match Backend.pairGate s.backend name p q with
    | .ok b => ({ s with backend := b }, .ok ())
    | .error cause => (s, .error cause)
  | .measure q =>
    match Backend.measure s.backend q with
    | .error cause => (s, .error cause)
    | .ok (outcome, b) =>
      if outcome ≤ 1 then
        ({ s with backend := b, results := s.results.setIfInBounds q outcome }, .ok ())
      else
        ({ s with backend := b }, .error (.invalidMeasurement q outcome))

/-- Makes calls in order, up to the first that goes wrong. -/
def issue (s : Datapath β) : List Call → Datapath β × Except Fault Unit
  | [] => (s, .ok ())
  | c :: rest =>
    match s.perform c with
    | (s, .ok ()) => s.issue rest
    | (s, .error cause) => (s, .error cause)

/-- Executes an operation. -/
def execute (s : Datapath β) (o : Operation) : Datapath β × Except Fault Flow :=
  match o with
  | .bundle _ ops =>
    match resolve s.targets ops with
    | .error cause => (s, .error cause)
    | .ok calls =>
      match s.issue calls with
      | (s, .ok ()) => (s, .ok .next)
      | (s, .error cause) => (s, .error cause)
  | o =>
    match carryOut o s with
    | (t, .ok ()) => (t, .ok (o.flow s.flags))
    | (t, .error cause) => (t, .error cause)

end Datapath

end Eqasm
