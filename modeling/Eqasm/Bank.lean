import Eqasm.Cell
import Eqasm.Decimal.Shortest

/-!
# Register banks

A bank is a row of registers of one width. `read` and `write` refuse registers that do not exist,
and `write` refuses cells of another width, so a bank keeps its size and the width of its cells.
The registers of a bank are called by its name and their number: `r0`, `r1`, …
-/

namespace Eqasm

/-- A row of registers; `blank` is what a cleared register holds. -/
structure Bank where
  name : String
  blank : Cell
  cells : Array Cell
  deriving DecidableEq, Repr

namespace Bank

/-- `count` cleared registers of `width` bits. -/
def make (name : String) (count width : Nat) : Except Fault Bank := do
  let blank ← Cell.zero width
  return ⟨name, blank, .replicate count blank⟩

/-- The number of registers. -/
def size (b : Bank) : Nat :=
  b.cells.size

/-- The width of the registers. -/
def width (b : Bank) : Nat :=
  b.blank.width

/-- The register is not in the bank. -/
def missing (b : Bank) (i : Nat) : Fault :=
  .registerOutOfRange b.name i b.size

/-- The contents of register `i`. -/
def read (b : Bank) (i : Nat) : Except Fault Cell :=
  match b.cells[i]? with
  | some c => .ok c
  | none => .error (b.missing i)

/-- Puts a cell of the bank's width into register `i`. -/
def write (b : Bank) (i : Nat) (c : Cell) : Except Fault Bank :=
  if i < b.size then
    if c.width = b.width then .ok { b with cells := b.cells.setIfInBounds i c }
    else .error (.widthMismatch b.width c.width)
  else
    .error (b.missing i)

/-- Clears every register. -/
def clear (b : Bank) : Bank :=
  { b with cells := b.cells.map fun _ => b.blank }

/-- Puts the cell with signed view `v` into register `i`. -/
def writeSigned (b : Bank) (i : Nat) (v : Int) : Except Fault Bank := do
  b.write i (← Cell.ofSigned v b.width)

/-- The single-precision number in register `i`. -/
def readSingle (b : Bank) (i : Nat) : Except Fault Float32 := do
  (← b.read i).toSingle

/-- One register in all its integer views. -/
def describe (b : Bank) (i : Nat) : Except Fault String := do
  let c ← b.read i
  let unsigned := alignRight 11 (toString c.bits)
  let signed := alignRight 11 (toString c.signed)
  return s!"{b.name}{i}: {c.toHex}, uint: {unsigned}, int: {signed}"

/-! ## Listings -/

/-- The registers in rows of eight. -/
def listing (b : Bank) (render : Cell → String) : String :=
  String.join (b.cells.toList.mapIdx fun i c =>
    let entry := s!"{alignRight 5 (b.name ++ toString i)}: {alignRight 12 (render c)}"
    entry ++ (if i % 8 = 7 ∨ i + 1 = b.size then "\n" else "  "))

/-- The text of a single-precision number. -/
def singleText (x : Float32) : String :=
  (Decimal.Real.ofBits Decimal.single x.toBits.toNat).text

/-- Registers as signed integers. -/
def integerListing (b : Bank) : String :=
  b.listing fun c => toString c.signed

/-- Registers as single-precision numbers, or as bit patterns if they are not 32 bits wide. -/
def singleListing (b : Bank) : String :=
  b.listing fun c => match c.toSingle with
    | .ok x => singleText x
    | .error _ => c.toHex

end Bank

end Eqasm
