import Eqasm.Backend.Simulator
import Eqasm.Bank.Events
import Eqasm.Instruction.Listing
import Eqasm.Machine

/-!
# The log of a machine

An instruction is logged when it is started, then what it wrote or which calls it made. The events
are computed from the machine before and behind a step.
-/

namespace Eqasm

/-- The register that an operation writes, and whether it is a floating point register. -/
def Operation.destination? : Operation → Option (Bool × Nat)
  | .not rd _ | .fbr _ rd | .fmr rd _ | .ldi rd _ | .ldui rd _ _ | .alu _ rd _ _
  | .load _ rd _ _ | .fcvtws rd _ | .fcmp _ rd _ _ => some (false, rd)
  | .fcvtsw fd _ | .flw fd _ _ | .fpu _ fd _ _ => some (true, fd)
  | _ => none

namespace Machine

/-- The event of a reset. -/
def resetEvent : Event :=
  ⟨.info, .processor, "processor reset"⟩

/-- The events of an upload that left the machine as it is. -/
def uploadEvents {β : Type} (m : Machine β) : List Event :=
  [resetEvent, ⟨.info, .processor,
    s!"uploaded program: {m.program.size} instructions, {m.labels.size} labels"⟩]

/-- The event of an addition to the program that left the machine as it is. -/
def appendEvent {β : Type} (m : Machine β) : Event :=
  ⟨.debug, .processor, s!"insn mem size: {m.program.size}"⟩

/-- The events of an operation that was carried out and left the datapath as it is. -/
def effectEvents (before after : Datapath Simulator) (o : Operation) : List Event :=
  match o.destination? with
  | some (false, rd) => after.general.writeEvents rd
  | some (true, fd) => after.floating.writeEvents fd
  | none =>
    match o with
    | .bundle _ ops =>
      match resolve before.targets ops with
      | .ok calls => before.backend.events calls
      | .error _ => []
    | _ => []

/-- The events of a step. -/
def stepEvents (m : Machine Simulator) : List Event :=
  if m.halted then []
  else match m.program[m.pc]? with
    | none => []
    | some i =>
      let level := if m.verbose then .info else .trace
      let started : Event :=
        ⟨level, .processor, s!"cycle {m.cycle + 1}: pc {m.pc}: {i.text}"⟩
      match m.data.execute i.operation with
      | (data, .ok _) => started :: effectEvents m.data data i.operation
      | (_, .error _) => [started]

/-- The events of a run for at most `n` more cycles, the latest first, in front of others. -/
def runForEvents : Nat → Machine Simulator → List Event → List Event
  | 0, m, log =>
    if m.halted then log
    else ⟨.warn, .processor,
      s!"cycle limit of {m.config.maxCycles} reached at pc {m.pc}"⟩ :: log
  | n + 1, m, log =>
    if m.halted then log
    else
      let log := m.stepEvents.reverse ++ log
      match m.step with
      | (m, none) => runForEvents n m log
      | (_, some _) => log

/-- The events of a run. -/
def runEvents (m : Machine Simulator) : List Event :=
  (runForEvents (m.config.maxCycles - m.cycle) m []).reverse

end Machine

end Eqasm
