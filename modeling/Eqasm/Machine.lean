import Eqasm.Config
import Eqasm.LabelTable
import Eqasm.Machine.Datapath

/-!
# The machine

A machine holds a program, the labels of its instructions, a datapath and its place in the program.
`step` executes one instruction and `run` goes on until the machine halts, fails or reaches its
cycle bound. `upload` installs a program and `append` adds an instruction to it; both refuse what
would carry a label twice.
-/

namespace Eqasm

/-- A control processor with a backend of type `β`. -/
structure Machine (β : Type) where
  config : Config
  program : Array Instruction
  labels : LabelTable
  data : Datapath β
  /-- The index of the next instruction. -/
  pc : Nat
  /-- How many instructions were started since the last restart. -/
  cycle : Nat
  halted : Bool
  /-- Whether executed instructions are logged as more than a trace. -/
  verbose : Bool

/-- Why execution ended. -/
inductive ExecError where
  /-- The instruction at `pc` could not be carried out. -/
  | fault (pc cycle : Nat) (cause : Fault)
  /-- There is no instruction at `pc`. -/
  | pcOutOfRange (pc length : Nat)
  /-- The branch at `pc` is taken and its label names no instruction. -/
  | undefinedLabel (pc : Nat) (label : String)
  deriving DecidableEq, Repr

/-- The wording of an execution error. -/
def ExecError.message : ExecError → String
  | fault pc cycle cause => s!"cycle {cycle}, pc {pc}: {cause.message}"
  | pcOutOfRange pc length =>
    s!"pc {pc} is outside instruction memory ({length} instructions)"
  | undefinedLabel pc label => s!"pc {pc}: branch to undefined label '{label}'"

/-- Why a program was refused. -/
inductive LoadError where
  | programTooLarge (length capacity : Nat)
  /-- The label that instruction `index` may branch to names no instruction. -/
  | undefinedLabel (index : Nat) (label : String)
  | duplicateLabel (label : String)
  deriving DecidableEq, Repr

/-- The wording of a refusal. -/
def LoadError.message : LoadError → String
  | programTooLarge length capacity =>
    s!"program has {length} instructions, instruction memory holds {capacity}"
  | undefinedLabel index label => s!"instruction {index} branches to undefined label '{label}'"
  | duplicateLabel label => s!"label '{label}' is defined more than once"

/-- How a run ended, and at which cycle. -/
inductive Outcome where
  | halted (cycles : Nat)
  | cycleLimit (cycles : Nat)
  deriving DecidableEq, Repr

namespace Machine

variable {β : Type}

/-- A machine without a program. -/
def make (config : Config) (backend : β) : Except Fault (Machine β) := do
  let general ← Bank.make "r" config.generalCount config.generalWidth
  let floating ← Bank.make "f" config.floatCount config.floatWidth
  let targets :=
    .unset config.singleCount config.pairCount config.targetCapacity config.qubits
  return {
    config
    program := #[]
    labels := .empty
    data :=
      { general
        floating
        targets
        memory := { size := config.memorySize }
        flags := {}
        results := .replicate config.qubits 0
        backend }
    pc := config.startAddress
    cycle := 0
    halted := false
    verbose := false }

/-! ## Loading -/

/-- Goes back to the start of the program, and forgets comparisons and measurements. -/
def restart (m : Machine β) : Machine β :=
  { m with
    data := { m.data with flags := {}, results := m.data.results.map fun _ => 0 }
    pc := m.config.startAddress
    cycle := 0
    halted := false }

/-- Forgets everything but data memory and the backend. -/
def reset (m : Machine β) : Machine β :=
  let m := m.restart
  { m with
    program := #[]
    labels := .empty
    data :=
      { m.data with
        general := m.data.general.clear
        floating := m.data.floating.clear
        targets := m.data.targets.clear } }

/-- The first of the instructions from `index` on with a branch to a label that is not there. -/
def undefinedBranch? (labels : LabelTable) (index : Nat) :
    List Instruction → Option (Nat × String)
  | [] => none
  | i :: rest =>
    match i.operation.branchLabel? with
    | some label =>
      if labels.contains label then undefinedBranch? labels (index + 1) rest
      else some (index, label)
    | none => undefinedBranch? labels (index + 1) rest

/-- The label table of a program that can be installed. -/
def check (m : Machine β) (program : List Instruction) : Except LoadError LabelTable :=
  if m.config.programCapacity < program.length then
    .error (.programTooLarge program.length m.config.programCapacity)
  else match LabelTable.ofProgram? program with
    | .error label => .error (.duplicateLabel label)
    | .ok labels =>
      match undefinedBranch? labels 0 program with
      | some (index, label) => .error (.undefinedLabel index label)
      | none => .ok labels

/-- Checks a program, resets the machine and installs the program. -/
def upload (program : List Instruction) : Work (Machine β) LoadError Unit := do
  let labels ← .look (·.check program)
  .change reset
  .change fun m => { m with program := program.toArray, labels }

/-- Refuses an instruction if there is no room for it or if a label of it is there already. -/
def checkNext (m : Machine β) (i : Instruction) : Except LoadError Unit :=
  if m.config.programCapacity ≤ m.program.size then
    .error (.programTooLarge (m.program.size + 1) m.config.programCapacity)
  else match m.labels.duplicate? [] i.labels with
    | some label => .error (.duplicateLabel label)
    | none => .ok ()

/-- Adds an instruction to the program. Its branch may go to a label that comes later. -/
def append (i : Instruction) : Work (Machine β) LoadError Unit := do
  .look (·.checkNext i)
  .change fun m => { m with labels := m.labels.insertAll m.program.size i.labels }
  .change fun m => { m with program := m.program.push i }

/-! ## Execution -/

variable [Backend β]

/-- Executes the instruction at the program counter, unless the machine has halted. -/
def step (m : Machine β) : Machine β × Option ExecError :=
  if m.halted then (m, none)
  else match m.program[m.pc]? with
    | none => (m, some (.pcOutOfRange m.pc m.program.size))
    | some i =>
      match m.data.execute i.operation with
      | (data, .error cause) =>
        ({ m with data, cycle := m.cycle + 1 }, some (.fault m.pc (m.cycle + 1) cause))
      | (data, .ok .next) => ({ m with data, cycle := m.cycle + 1, pc := m.pc + 1 }, none)
      | (data, .ok .stop) =>
        ({ m with data, cycle := m.cycle + 1, pc := m.pc + 1, halted := true }, none)
      | (data, .ok (.jump label)) =>
        match m.labels.find? label with
        | some target => ({ m with data, cycle := m.cycle + 1, pc := target }, none)
        | none => ({ m with data, cycle := m.cycle + 1 }, some (.undefinedLabel m.pc label))

/-- Runs for at most `n` more cycles. -/
def runFor : Nat → Machine β → Machine β × Except ExecError Outcome
  | 0, m => (m, .ok (if m.halted then .halted m.cycle else .cycleLimit m.cycle))
  | n + 1, m =>
    if m.halted then (m, .ok (.halted m.cycle))
    else match m.step with
      | (m, none) => runFor n m
      | (m, some e) => (m, .error e)

/-- Runs until the machine halts or fails, or the cycle counter has reached its bound. -/
def run (m : Machine β) : Machine β × Except ExecError Outcome :=
  runFor (m.config.maxCycles - m.cycle) m

end Machine

end Eqasm
