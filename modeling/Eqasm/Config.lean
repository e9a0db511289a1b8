/-!
# Machine configurations

The sizes of the parts of a machine, where its programs start and how long they may run. The
defaults are those of the reference machine.
-/

namespace Eqasm

/-- The configuration of a machine. -/
structure Config where
  /-- The number of instructions that fit. -/
  programCapacity : Nat := 1000000
  /-- The bytes of data memory. -/
  memorySize : Nat := 4 * 1024 * 1024
  generalCount : Nat := 32
  generalWidth : Nat := 32
  floatCount : Nat := 32
  floatWidth : Nat := 32
  /-- The number of single-qubit target registers. -/
  singleCount : Nat := 32
  /-- The number of two-qubit target registers. -/
  pairCount : Nat := 64
  /-- The number of entries that fit in a target register. -/
  targetCapacity : Nat := 32
  qubits : Nat := 7
  /-- A run ends at this cycle if it does not end before. -/
  maxCycles : Nat := 1000000
  /-- The index of the first instruction to execute. -/
  startAddress : Nat := 0
  deriving DecidableEq, Repr

end Eqasm
