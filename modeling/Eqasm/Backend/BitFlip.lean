import Eqasm.Backend

/-!
# The bit-flip backend

It keeps one bit for each qubit, which is enough for circuits that permute the basis states. The
gates `x`, `y`, `x180` and `y180` flip a bit, `cnot` and `cx` flip the second bit of a pair if the
first is set, `swap` exchanges two bits, and all other gates do nothing. A measurement reads a bit.
-/

namespace Eqasm

/-- One bit for each qubit. -/
structure BitFlip where
  bits : Array Bool
  deriving DecidableEq, Repr

namespace BitFlip

/-- `n` qubits with all bits clear. -/
def zeros (n : Nat) : BitFlip :=
  ⟨.replicate n false⟩

/-- Clears all bits. -/
def reset (b : BitFlip) : BitFlip :=
  zeros b.bits.size

/-- The bit of a qubit. -/
def read (b : BitFlip) (q : Nat) : Except Fault Bool :=
  match b.bits[q]? with
  | some bit => .ok bit
  | none => .error (.backendRefused q)

/-- Flips the bit of a qubit. -/
def flip (b : BitFlip) (q : Nat) : Except Fault BitFlip := do
  let bit ← b.read q
  return ⟨b.bits.setIfInBounds q !bit⟩

/-- Exchanges the bits of two qubits. -/
def swap (b : BitFlip) (p q : Nat) : Except Fault BitFlip := do
  let bitP ← b.read p
  let bitQ ← b.read q
  return ⟨(b.bits.setIfInBounds p bitQ).setIfInBounds q bitP⟩

/-- The bits as digits, that of qubit 0 first. -/
def digits (b : BitFlip) : String :=
  String.ofList (b.bits.toList.map fun bit => if bit then '1' else '0')

/-- The names of the gates that flip a bit. -/
def flips : List String :=
  ["x", "y", "x180", "y180"]

/-- The names of the gates that flip a bit if another one is set. -/
def controlledFlips : List String :=
  ["cnot", "cx"]

instance : Backend BitFlip where
  gate b name q := if name ∈ flips then b.flip q else .ok b
  pairGate b name p q := do
    if name ∈ controlledFlips then
      if ← b.read p then b.flip q else return b
    else if name = "swap" then b.swap p q
    else return b
  measure b q := do return (if ← b.read q then 1 else 0, b)

end BitFlip

end Eqasm
