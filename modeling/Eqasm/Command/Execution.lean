import Eqasm.Command.Reading
import Eqasm.Machine.State
import Eqasm.Memory.Dump
import Eqasm.Program.Files
import Eqasm.Settings.Reading
import Eqasm.Setup
import Eqasm.Tally.Report

/-!
# Carrying out commands

Each command says what it does while it goes on; a failure ends it and is told last. A command that
fails ends with status 1, any other with status 0.
-/

namespace Eqasm

variable {m : Type → Type} [Monad m] [Shell m]

/-- The result of something that can fail, whose failure the command shares. -/
def attempt {ε α : Type} (failure : ε → Failure) (result : Except ε α) : Task m α :=
  ExceptT.mk (pure (result.mapError failure))

/-- Says a line. -/
def say (line : String) : Task m Unit :=
  (Shell.say line : m Unit)

/-- Says lines. -/
def sayAll (lines : List String) : Task m Unit :=
  lines.forM say

/-- The settings in a file. -/
def readSettings (name : String) : Task m Settings := do
  match ← Shell.readText (m := m) name with
  | .error e => throw (.unreadableSettings name e)
  | .ok text =>
    match Settings.read? text with
    | some s => return s
    | none => throw (.malformedSettings name)

/-- The setup that a user asks for. -/
def MachineOptions.setup (o : MachineOptions) : Task m Setup := do
  let settings ← match o.settings with
    | some name => readSettings name
    | none => pure {}
  let image ← match o.image with
    | some name => readImage name
    | none => pure []
  let ⟨config, backend⟩ := o.override settings
  return { config, backend, image }

/-- The program in a file, told about. -/
def announceProgram (source : String) : Task m (List Instruction) := do
  say s!"Loading program from {source}..."
  let program ← loadProgram source
  say s!"Loaded {program.length} instructions."
  return program

/-- Tells how a run ended and what it left, and fails if the run did. -/
def showRun (dump : Option MemoryRange) (machine : Machine Simulator)
    (outcome : Except ExecError Outcome) : Task m Unit := do
  say <| match outcome with
    | .ok (.halted cycles) => s!"Halted after {cycles} cycles."
    | .ok (.cycleLimit cycles) =>
      s!"Cycle limit reached after {cycles} cycles at pc {machine.pc}."
    | .error e => s!"Execution stopped: {e.message}"
  sayAll machine.stateLines
  if let some range := dump then
    sayAll (← attempt .dumpOutside (machine.data.memory.dump range))
  let _ ← attempt .failedExecution outcome

/-- Reports on a program, and writes its listing if a file is named. -/
def checkProgram (source : String) (listing : Option String) : Task m Unit := do
  let a ← readSource source
  for d in a.diagnostics do
    (Shell.complain s!"{source}: {d.text}" : m Unit)
  unless a.succeeded do
    throw (.checkedSource source a.diagnostics.size)
  let machine ← attempt .badConfig (Machine.make {} (Simulator.ideal {}))
  let _ ← attempt (.unloadableSource source) ((Machine.upload a.instructions.toList).exec machine)
  say s!"{source}: {a.instructions.size} instructions, {a.labels.size} labels"
  sayAll (a.labels.sorted.map fun (label, index) => s!"  {alignRight 6 (toString index)}  {label}")
  if let some name := listing then
    writeListing name a.instructions.toList
    say s!"Listing written to {name}"

/-- Carries out a command. -/
def Command.perform (verbose : Bool) : Command → Task m Unit
  | check source listing => checkProgram source listing
  | run source options dump => do
    let setup ← options.setup
    let machine ← setup.boot (← announceProgram source) 0
    let (machine, outcome) := { machine with verbose }.run
    showRun dump machine outcome
  | shots source options count => do
    let setup ← options.setup
    let program ← announceProgram source
    say s!"Starting {count} shots (Parallel - Rayon)..."
    let tally ← setup.shots program count
    sayAll tally.report

/-- Carries out a command and tells of its failure. The answer is the exit status. -/
def Invocation.execute (i : Invocation) : m UInt32 := do
  match ← (i.command.perform (0 < i.verbosity)).run with
  | .ok () => return 0
  | .error failure =>
    failure.report.forM Shell.complain
    return 1

/-- Carries out a command line. -/
def executeWords (words : List String) : m UInt32 := do
  match Invocation.ofWords words with
  | .ok i => i.execute
  | .error .help =>
    usage.forM Shell.say
    return 0
  | .error .misuse =>
    usage.forM Shell.complain
    return 2

end Eqasm
