import Eqasm.Machine.Datapath
import Eqasm.Proofs.Memory.Writing
import Eqasm.Proofs.TargetRegisters.Sound

/-!
# Atomicity

An operation other than a bundle is carried out in steps, and one of them may end with a fault. What
such an operation makes of a datapath as a whole is `Datapath.compute`. To carry it out is to
attempt this (`Datapath.carryOut_eq`), so a fault finds nothing to undo: words are stored byte by
byte, but not before all four bytes are known to be inside (`Memory.writeWord_eq`).
-/

namespace Eqasm

namespace Datapath

open Work

variable {β : Type}

/-- The memory behind a store of a cell. -/
def stored (s : Datapath β) (a : Nat) (c : Cell) : StoreOp → Except Fault Memory
  | .word => do (Memory.writeWord a (← c.toWord)).exec s.memory
  | .byte => (Memory.writeByte a c.lowByte).exec s.memory

/-- What an operation other than a bundle makes of the datapath. -/
def compute (s : Datapath β) : Operation → Except Fault (Datapath β)
  | .nop | .stop | .qwait _ | .br _ _ | .bundle _ _ => return s
  | .qwaitr rs => do
    let _ ← s.general.read rs
    return s
  | .smis si qubits =>
    return { s with targets := ← (TargetRegisters.setSingle si qubits).exec s.targets }
  | .smit ti pairs =>
    return { s with targets := ← (TargetRegisters.setPair ti pairs).exec s.targets }
  | .not rd rt => do s.writeGeneral rd (← s.general.read rt).not
  | .cmp rs rt =>
    return { s with flags := s.flags.compare (← s.general.read rs) (← s.general.read rt) }
  | .fbr flag rd => s.writeUnsigned rd (if s.flags.get flag then 1 else 0)
  | .fmr rd qs => do s.writeUnsigned rd (← s.result qs)
  | .ldi rd imm => s.writeSigned rd imm.toInt
  | .ldui rd rs imm => do s.writeGeneral rd (← (← s.general.read rs).splice 17 32 imm.toNat)
  | .alu op rd rs rt => do
    s.writeGeneral rd (← op.apply (← s.general.read rs) (← s.general.read rt))
  | .load op rd rt offset => do s.writeGeneral rd (← s.loaded (← s.address rt offset) op)
  | .store op rs rt offset => do
    let a ← s.address rt offset
    return { s with memory := ← s.stored a (← s.general.read rs) op }
  | .fcvtws rd fs => do s.writeSigned rd (← s.floating.readSingle fs).toInt32.toInt
  | .fcvtsw fd rs => do
    let v := (← s.general.read rs).signed
    s.writeFloating fd (.ofSingle (Int64.ofInt v).toFloat32)
  | .flw fd rt offset => do
    s.writeFloating fd (.word (← s.memory.readWord (← s.address rt offset)))
  | .fsw fs rt offset => do
    let a ← s.address rt offset
    return { s with memory := ← s.stored a (← s.floating.read fs) .word }
  | .fpu op fd fs ft => do
    s.writeFloating fd (← Cell.single op.apply (← s.floating.read fs) (← s.floating.read ft))
  | .fcmp op rd fs ft => do
    let x ← s.floating.readSingle fs
    let y ← s.floating.readSingle ft
    s.writeUnsigned rd (if op.holds x y then 1 else 0)

/-! ## Work in steps -/

/-- Work on memory that makes all of its changes or none, is such work on the datapath. -/
theorem onMemory_eq {w : Work Memory Fault Unit} {f : Memory → Except Fault Memory}
    (h : w = attempt f) :
    onMemory (β := β) w = attempt fun s => return { s with memory := ← w.exec s.memory } := by
  rw [onMemory, h, part_attempt (fun _ => rfl), exec_attempt]

theorem onTargets_eq {w : Work TargetRegisters Fault Unit}
    {f : TargetRegisters → Except Fault TargetRegisters} (h : w = attempt f) :
    onTargets (β := β) w = attempt fun s => return { s with targets := ← w.exec s.targets } := by
  rw [onTargets, h, part_attempt (fun _ => rfl), exec_attempt]

/-- **A store replaces all of its bytes or none.** -/
theorem store_eq (a : Nat) (c : Cell) (op : StoreOp) :
    store (β := β) a c op = attempt fun s => return { s with memory := ← s.stored a c op } := by
  cases op with
  | word =>
    simp only [store, onMemory_eq (Memory.writeWord_eq a _), look_bind_attempt, stored, bind_assoc]
  | byte => exact onMemory_eq (Memory.writeByte_eq a c.lowByte)

/-- **To carry an operation out is to attempt what it computes.** -/
theorem carryOut_eq (o : Operation) : carryOut (β := β) o = attempt (·.compute o) := by
  cases o with
  | nop | stop | qwait | br | bundle => rfl
  | fbr | ldi => rfl
  | qwaitr rs => exact look_bind_pure _
  | smis si qubits => exact onTargets_eq (TargetRegisters.setSingle_eq si qubits)
  | smit ti pairs => exact onTargets_eq (TargetRegisters.setPair_eq ti pairs)
  | cmp rs rt =>
    simp only [carryOut, look_bind_change, look_bind_attempt]
    rfl
  | store op rs rt offset =>
    simp only [carryOut, store_eq, look_bind_attempt]
    rfl
  | fsw fs rt offset =>
    simp only [carryOut, store_eq, look_bind_attempt]
    rfl
  | _ =>
    simp only [carryOut, look_bind_attempt]
    rfl

variable [Backend β]

/-- **An operation other than a bundle has all of its effect or none.** -/
theorem execute_eq {s : Datapath β} {o : Operation} (h : ∀ pi ops, o ≠ .bundle pi ops) :
    s.execute o = match s.compute o with
      | .error cause => (s, .error cause)
      | .ok t => (t, .ok (o.flow s.flags)) := by
  have hwork := congrFun (carryOut_eq (β := β) o) s
  rw [attempt] at hwork
  cases ht : s.compute o with
  | error cause =>
    rw [ht] at hwork
    cases o with
    | bundle pi ops => exact absurd rfl (h pi ops)
    | _ => simp only [execute, hwork]
  | ok t =>
    rw [ht] at hwork
    cases o with
    | bundle pi ops => exact absurd rfl (h pi ops)
    | _ => simp only [execute, hwork]

/-- A branch changes nothing. -/
theorem execute_br (s : Datapath β) (flag : Flag) (label : String) :
    s.execute (.br flag label) = (s, .ok ((Operation.br flag label).flow s.flags)) :=
  rfl

end Datapath

end Eqasm
