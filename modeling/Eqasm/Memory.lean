import Eqasm.Fault
import Eqasm.Work
import Std.Data.TreeMap

/-!
# Data memory

A memory of `size` bytes, all zero at first. Only bytes that were written are stored, and `byte`
is the view of a memory as a function from addresses to bytes. Words are little-endian: their least
significant byte has the lowest address. A write first looks whether all of its bytes lie inside and
then replaces them one after the other.
-/

namespace Eqasm

-- Powers are the ones of the core library, whatever else is in scope.
attribute [local instance (2000)] instPowNat

/-- A byte-addressed memory. -/
structure Memory where
  size : Nat
  written : Std.TreeMap Nat UInt8 := ∅

namespace Memory

/-- The byte at an address, zero where nothing was written. -/
def byte (m : Memory) (a : Nat) : UInt8 :=
  m.written.getD a 0

/-- The memory with one byte replaced. -/
def put (m : Memory) (a : Nat) (b : UInt8) : Memory :=
  { m with written := m.written.insert a b }

/-- The bytes from `a` on. -/
def bytes (m : Memory) (a n : Nat) : List UInt8 :=
  (List.range n).map fun i => m.byte (a + i)

/-- The fault of an access at `a`. Messages show addresses as signed 64-bit numbers. -/
def outside (m : Memory) (a : Nat) : Fault :=
  .addressOutOfRange (Int.bmod a 0x10000000000000000) m.size

/-- The result of an access to the `n` bytes from `a` on. -/
def access {α : Type} (m : Memory) (a n : Nat) (result : α) : Except Fault α :=
  if a + n ≤ m.size then .ok result else .error (m.outside a)

/-! ## Bytes and words -/

/-- The byte at `a`. -/
def readByte (m : Memory) (a : Nat) : Except Fault UInt8 :=
  m.access a 1 (m.byte a)

/-- Replaces the byte at `a`. -/
def writeByte (a : Nat) (b : UInt8) : Work Memory Fault Unit := do
  .look (·.access a 1 ())
  .change (·.put a b)

/-- Replaces the bytes from `a` on, one after the other. -/
def writeBytes (a : Nat) : List UInt8 → Work Memory Fault Unit
  | [] => return
  | b :: bs => do
    writeByte a b
    writeBytes (a + 1) bs

/-- The word of four bytes, the least significant one first. -/
def wordOfBytes (bs : List UInt8) : UInt32 :=
  .ofNat (bs.foldr (fun b n => b.toNat + 256 * n) 0)

/-- The four bytes of a word, the least significant one first. -/
def bytesOfWord (w : UInt32) : List UInt8 :=
  (List.range 4).map fun i => .ofNat (w.toNat / 256 ^ i)

/-- The word at `a`. -/
def readWord (m : Memory) (a : Nat) : Except Fault UInt32 :=
  m.access a 4 (wordOfBytes (m.bytes a 4))

/-- Replaces the word at `a`. No byte is replaced before all four are known to be inside. -/
def writeWord (a : Nat) (w : UInt32) : Work Memory Fault Unit := do
  .look (·.access a 4 ())
  writeBytes a (bytesOfWord w)

/-! ## Ranges -/

/-- Replaces the bytes from `a` on by an image. -/
def loadImage (a : Nat) (image : List UInt8) : Work Memory Fault Unit := do
  .look (·.access a image.length ())
  writeBytes a image

/-- The `n` bytes from `a` on. -/
def slice (m : Memory) (a n : Nat) : Except Fault (List UInt8) :=
  (m.access a n ()).map fun _ => m.bytes a n

/-- The runs of bytes other than zero, each with its first address, by increasing address. -/
def runs (m : Memory) : List (Nat × List UInt8) :=
  m.written.foldr (fun a b acc =>
    if b = 0 then acc
    else match acc with
      | (next, bs) :: rest => if next = a + 1 then (a, b :: bs) :: rest else (a, [b]) :: acc
      | [] => [(a, [b])]) []

end Memory

end Eqasm
