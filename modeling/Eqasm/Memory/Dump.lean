import Eqasm.Memory
import Eqasm.Memory.Range
import Eqasm.Text.Align

/-!
# Memory dumps

A dump shows the bytes of a range in rows of sixteen, each behind the address of its first byte.
-/

namespace Eqasm

/-- The row of the bytes from an address on. -/
def dumpRow (address : Nat) (bytes : List UInt8) : String :=
  hexadecimal 8 address ++ ": " ++ " ".intercalate (bytes.map fun b => hexadecimal 2 b.toNat)

/-- The rows of as many as `n` times sixteen bytes. -/
def dumpRows (address : Nat) (bytes : List UInt8) : Nat → List String
  | 0 => []
  | n + 1 =>
    if bytes = [] then []
    else dumpRow address (bytes.take 16) :: dumpRows (address + 16) (bytes.drop 16) n

/-- The lines of a dump. -/
def Memory.dump (m : Memory) (r : MemoryRange) : Except Fault (List String) := do
  let bytes ← m.slice r.start r.length
  let range := s!"[0x{hexadecimal 1 r.start}, 0x{hexadecimal 1 (r.start + r.length)})"
  return ["", s!"Data Memory {range}"] ++ dumpRows r.start bytes (r.length / 16 + 1)

end Eqasm
