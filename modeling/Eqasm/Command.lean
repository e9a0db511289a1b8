import Eqasm.Memory.Range
import Eqasm.Settings

/-!
# Commands

What a user can ask for on the command line: to check a program, to run it once, or to run it many
times.
-/

namespace Eqasm

/-- What a user can say about the machine of a run. A number that is given here takes precedence
over the settings file. -/
structure MachineOptions where
  /-- The name of a settings file. -/
  settings : Option String := none
  maxCycles : Option Nat := none
  qubits : Option Nat := none
  backend : Option BackendKind := none
  seed : Option Nat := none
  /-- The probability of measuring 1. -/
  one : Option Float := none
  /-- The name of a file with the first bytes of data memory. -/
  image : Option String := none

/-- A command for the program in a file. -/
inductive Command where
  /-- Reports on the program, and writes its listing into a file if one is named. -/
  | check (source : String) (listing : Option String)
  /-- Runs the program and shows what it left, with a part of data memory if one is given. -/
  | run (source : String) (options : MachineOptions) (dump : Option MemoryRange)
  /-- Runs the program a number of times and reports on the measurements. -/
  | shots (source : String) (options : MachineOptions) (count : Nat)

/-- A command and how often the user asked to be told more. -/
structure Invocation where
  command : Command
  verbosity : Nat := 0

namespace MachineOptions

/-- The settings with what the user said instead. -/
def override (o : MachineOptions) (s : Settings) : Settings where
  config :=
    { s.config with
      maxCycles := o.maxCycles.getD s.config.maxCycles
      qubits := o.qubits.getD s.config.qubits }
  backend :=
    { kind := o.backend.getD s.backend.kind
      seed := (o.seed.map UInt64.ofNat).getD s.backend.seed
      one := o.one.getD s.backend.one }

end MachineOptions

end Eqasm
