import Eqasm.Fault
import Eqasm.Work

/-!
# Target registers

Quantum operations name their qubits by way of target registers: the single-qubit registers `s0`,
`s1`, … hold lists of qubits, the two-qubit registers `t0`, `t1`, … lists of ordered pairs. A
register is unset until it is loaded. A loaded list is not empty, has no entry twice, is no longer
than the capacity and names only qubits that exist, and no pair names one qubit twice.
-/

namespace Eqasm

/-- The target registers of a machine with `qubits` qubits. -/
structure TargetRegisters where
  singles : Array (Option (List Nat))
  pairs : Array (Option (List (Nat × Nat)))
  capacity : Nat
  qubits : Nat
  deriving DecidableEq, Repr

namespace TargetRegisters

/-- Target registers that are all unset. -/
def unset (singles pairs capacity qubits : Nat) : TargetRegisters :=
  ⟨.replicate singles none, .replicate pairs none, capacity, qubits⟩

/-- Unsets every register. -/
def clear (t : TargetRegisters) : TargetRegisters :=
  { t with singles := t.singles.map fun _ => none, pairs := t.pairs.map fun _ => none }

/-! ## Checks -/

/-- Refuses a register that a file of `count` registers does not have. -/
def checkRegister (file : String) (index count : Nat) : Except Fault Unit :=
  if index < count then .ok () else .error (.registerOutOfRange file index count)

/-- Refuses a list for its length or for an entry that it has twice. -/
def checkList {α : Type} [DecidableEq α] (t : TargetRegisters) (file : String) (index : Nat)
    (entries : List α) : Except Fault Unit :=
  if entries = [] then .error (.emptyTargetList file index)
  else if t.capacity < entries.length then
    .error (.targetListTooLong file index entries.length t.capacity)
  else if entries.Nodup then .ok ()
  else .error (.duplicateTarget file index)

/-- Refuses a qubit that does not exist. -/
def checkQubit (t : TargetRegisters) (q : Nat) : Except Fault Unit :=
  if q < t.qubits then .ok () else .error (.qubitOutOfRange q t.qubits)

/-- Refuses a pair for one of its qubits or because they are the same. -/
def checkPair (t : TargetRegisters) (p : Nat × Nat) : Except Fault Unit := do
  t.checkQubit p.1
  t.checkQubit p.2
  if p.1 = p.2 then throw (.degeneratePair p.1)

/-! ## Access -/

/-- Loads register `s<i>`. -/
def setSingle (i : Nat) (qubits : List Nat) : Work TargetRegisters Fault Unit := do
  .look fun t => checkRegister "s" i t.singles.size
  .look (·.checkList "s" i qubits)
  .look fun t => qubits.forM t.checkQubit
  .change fun t => { t with singles := t.singles.setIfInBounds i (some qubits) }

/-- Loads register `t<i>`. -/
def setPair (i : Nat) (pairs : List (Nat × Nat)) : Work TargetRegisters Fault Unit := do
  .look fun t => checkRegister "t" i t.pairs.size
  .look (·.checkList "t" i pairs)
  .look fun t => pairs.forM t.checkPair
  .change fun t => { t with pairs := t.pairs.setIfInBounds i (some pairs) }

/-- The entries of a register of a file. -/
def entries {α : Type} (file : String) (registers : Array (Option α)) (i : Nat) : Except Fault α :=
  match registers[i]? with
  | none => .error (.registerOutOfRange file i registers.size)
  | some none => .error (.unsetTargetRegister file i)
  | some (some list) => .ok list

/-- The qubits in register `s<i>`. -/
def readSingle (t : TargetRegisters) (i : Nat) : Except Fault (List Nat) :=
  entries "s" t.singles i

/-- The pairs in register `t<i>`. -/
def readPair (t : TargetRegisters) (i : Nat) : Except Fault (List (Nat × Nat)) :=
  entries "t" t.pairs i

end TargetRegisters

end Eqasm
