import Eqasm.Failure
import Eqasm.Settings
import Eqasm.Tally

/-!
# Setting up machines

A setup is all that a machine needs before it gets a program. `Setup.boot` makes a machine from it,
and `Setup.shots` runs a program on many machines that differ in their random streams only.
-/

namespace Eqasm

/-- What a machine starts from. -/
structure Setup where
  config : Config := {}
  backend : BackendSettings := {}
  /-- The first bytes of data memory. -/
  image : List UInt8 := []

namespace Setup

/-- A machine with a program. Each stream has random outcomes of its own. -/
def boot (s : Setup) (program : List Instruction) (stream : Nat) :
    Except Failure (Machine Simulator) := do
  let backend ← (s.backend.build s.config.qubits (.ofNat stream)).mapError .badBackend
  let m ← (Machine.make s.config backend).mapError .badConfig
  let memory ← ((Memory.loadImage 0 s.image).exec m.data.memory).mapError .oversizedImage
  let m := { m with data := { m.data with memory } }
  ((Machine.upload program).exec m).mapError .refusedProgram

/-- The tally of one shot. -/
def shot (s : Setup) (program : List Instruction) (number : Nat) : Except Failure Tally := do
  match (← s.boot program number).run with
  | (_, .error e) => .error (.failedShot number e)
  | (m, .ok (.halted cycles)) => .ok (Tally.add {} m.data.results.toList cycles true)
  | (m, .ok (.cycleLimit cycles)) => .ok (Tally.add {} m.data.results.toList cycles false)

/-- Adds `count` shots, numbered from `first` on, to a tally. -/
def shotsFrom (s : Setup) (program : List Instruction) (first : Nat) (t : Tally) :
    Nat → Except Failure Tally
  | 0 => .ok t
  | count + 1 =>
    match s.shot program first with
    | .error e => .error e
    | .ok u => s.shotsFrom program (first + 1) (t.merge u) count

/-- The tally of `count` shots. Without shots nothing is set up, so nothing can fail. -/
def shots (s : Setup) (program : List Instruction) (count : Nat) : Except Failure Tally :=
  s.shotsFrom program 0 {} count

end Setup

end Eqasm
