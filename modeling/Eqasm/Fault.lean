/-!
# Faults

The causes for which an operation on the data of a machine can fail. A `Fault` keeps the numbers
that explain the failure, and `Fault.message` words it.
-/

namespace Eqasm

/-- Why an operation on registers, memory or qubits was refused. -/
inductive Fault where
  /-- A cell of another width was required. -/
  | widthMismatch (expected found : Nat)
  /-- An integer does not fit in the cell it is meant for. -/
  | valueOutOfRange (value : Int) (width : Nat)
  /-- Only 32-bit cells hold single-precision numbers. -/
  | unsupportedFloatWidth (width : Nat)
  /-- The bits from `start` to below `stop` are not all inside the cell, or there are none. -/
  | fieldOutOfRange (start stop width : Nat)
  /-- The register file has too few registers. -/
  | registerOutOfRange (file : String) (index count : Nat)
  /-- Some accessed byte lies outside data memory. -/
  | addressOutOfRange (address : Int) (size : Nat)
  /-- A target register was given no entry. -/
  | emptyTargetList (file : String) (index : Nat)
  /-- A target register was given more entries than it can hold. -/
  | targetListTooLong (file : String) (index length capacity : Nat)
  /-- A target register was given one entry twice. -/
  | duplicateTarget (file : String) (index : Nat)
  /-- Both qubits of a pair are the same one. -/
  | degeneratePair (qubit : Nat)
  /-- The machine has too few qubits. -/
  | qubitOutOfRange (qubit count : Nat)
  /-- A bundle reads a target register that was never loaded. -/
  | unsetTargetRegister (file : String) (index : Nat)
  /-- A backend measured something other than 0 or 1. -/
  | invalidMeasurement (qubit outcome : Nat)
  /-- The divisor is zero. -/
  | divideByZero
  /-- Cells have 1 to 64 bits. -/
  | unsupportedWidth (width : Nat)
  /-- A backend was asked about a qubit that it does not have. -/
  | backendRefused (qubit : Nat)
  deriving DecidableEq, Repr

/-- The wording of a fault. -/
def Fault.message : Fault → String
  | widthMismatch expected found =>
    s!"width mismatch: expected a {expected}-bit value, found {found} bits"
  | valueOutOfRange value width => s!"value {value} does not fit in {width} bits"
  | unsupportedFloatWidth width =>
    s!"single-precision view requires a 32-bit cell, found {width} bits"
  | fieldOutOfRange start stop width =>
    s!"bit field [{start}, {stop}) lies outside a {width}-bit cell"
  | registerOutOfRange file index count =>
    s!"register {file}{index} does not exist ({count} registers)"
  | addressOutOfRange address size =>
    s!"address {address} is outside data memory of {size} bytes"
  | emptyTargetList file index =>
    s!"target register {file}{index} cannot be loaded with an empty list"
  | targetListTooLong file index length capacity =>
    s!"target register {file}{index} holds at most {capacity} entries, got {length}"
  | duplicateTarget file index => s!"target register {file}{index} lists an entry twice"
  | degeneratePair qubit => s!"qubit pair ({qubit}, {qubit}) addresses a single qubit"
  | qubitOutOfRange qubit count => s!"qubit {qubit} does not exist ({count} qubits)"
  | unsetTargetRegister file index => s!"target register {file}{index} has not been set"
  | invalidMeasurement qubit outcome =>
    s!"backend returned measurement outcome {outcome} for qubit {qubit}"
  | divideByZero => "integer division by zero"
  | unsupportedWidth width => s!"cells have 1 to 64 bits, not {width}"
  | backendRefused qubit => s!"the backend does not have qubit {qubit}"

end Eqasm
