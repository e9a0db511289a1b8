import Eqasm.Text.Blank
import Eqasm.Text.Unsigned

/-!
# Ranges of memory

A range is written as an address, a colon and a length. Both numbers are decimal, or hexadecimal
behind `0x`, and blanks around them do not count.
-/

namespace Eqasm

/-- Some neighbouring bytes of data memory. -/
structure MemoryRange where
  start : Nat
  length : Nat
  deriving DecidableEq, Repr

/-- Why a text is no range. -/
inductive RangeError where
  | noColon (text : String)
  | badNumber (text : String) (cause : Text.IntegerError)
  deriving DecidableEq, Repr

/-- The wording of an error. -/
def RangeError.message : RangeError → String
  | noColon text => s!"expected ADDR:LEN, got '{text}'"
  | badNumber text cause => s!"invalid number '{text}': {cause.message}"

namespace MemoryRange

/-- Reads one of the numbers of a range. -/
def readPart (text : List Char) : Except RangeError Nat :=
  let digits := Text.trim text
  let number := match digits with
    | '0' :: 'x' :: rest => Text.readUnsigned 16 rest
    | _ => Text.readUnsigned 10 digits
  number.mapError (.badNumber (String.ofList digits))

/-- Reads a range. -/
def read (text : String) : Except RangeError MemoryRange :=
  let address := text.toList.takeWhile (· ≠ ':')
  match text.toList.dropWhile (· ≠ ':') with
  | [] => .error (.noColon text)
  | _ :: length => do return ⟨← readPart address, ← readPart length⟩

end MemoryRange

end Eqasm
