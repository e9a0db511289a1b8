import Eqasm.Fault
import Eqasm.Text.Align

/-!
# Cells

A cell is a bit pattern of a stated width between 1 and 64 bits. Its unsigned view is `bits`, its
two's-complement view `signed`; arithmetic is arithmetic modulo `2 ^ width` and wants operands of
one width.

The constructors refuse numbers that do not fit (`ofUnsigned`, `ofSigned`), the extensions keep
the unsigned or signed view (`zeroExtend`, `signExtend`), and a range of bits is read by `field`
and replaced by `splice`.
-/

namespace Eqasm

-- Powers are the ones of the core library, whatever else is in scope.
attribute [local instance (2000)] instPowNat

/-- A bit pattern of `width` bits. -/
structure Cell where
  width : Nat
  bits : Nat
  width_pos : 0 < width
  width_le : width ≤ 64
  bits_lt : bits < 2 ^ width
  deriving DecidableEq, Repr

namespace Cell

/-- The two's-complement reading. The bits are moved to the top of a 64-bit word and back, and the
sign follows. -/
def signed (c : Cell) : Int :=
  ((BitVec.ofNat 64 c.bits <<< (64 - c.width)).sshiftRight (64 - c.width)).toInt

/-- The cell of the same width whose bits are congruent to `z`. -/
def wrap (c : Cell) (z : Int) : Cell :=
  { c with
    bits := (z % 2 ^ c.width).toNat
    bits_lt := by
      have h := Int.emod_lt_of_pos z (Int.pow_pos (n := 2) (m := c.width) (by decide))
      have h' := Int.emod_nonneg z (Int.ne_of_gt (Int.pow_pos (n := 2) (m := c.width) (by decide)))
      have e : ((2 ^ c.width : Nat) : Int) = 2 ^ c.width := by simp
      omega }

@[simp] theorem width_wrap (c : Cell) (z : Int) : (c.wrap z).width = c.width := rfl

/-! ## Making cells -/

/-- The cell of `width` bits that holds zero. -/
def zero (width : Nat) : Except Fault Cell :=
  if h : 0 < width ∧ width ≤ 64 then
    .ok ⟨width, 0, h.1, h.2, Nat.two_pow_pos width⟩
  else
    .error (.unsupportedWidth width)

/-- The cell of `width` bits whose unsigned view is `n`. -/
def ofUnsigned (n width : Nat) : Except Fault Cell :=
  if hw : 0 < width ∧ width ≤ 64 then
    if hn : n < 2 ^ width then .ok ⟨width, n, hw.1, hw.2, hn⟩
    else .error (.valueOutOfRange n width)
  else
    .error (.unsupportedWidth width)

/-- The cell of `width` bits whose signed view is `v`. -/
def ofSigned (v : Int) (width : Nat) : Except Fault Cell := do
  let c ← zero width
  if -(2 ^ (width - 1)) ≤ v ∧ v < 2 ^ (width - 1) then return c.wrap v
  else throw (.valueOutOfRange v width)

/-- The 32-bit cell of a word. -/
def word (n : UInt32) : Cell :=
  ⟨32, n.toNat, by decide, by decide, n.toNat_lt⟩

/-- The 8-bit cell of a byte. -/
def byte (b : UInt8) : Cell :=
  ⟨8, b.toNat, by decide, by decide, b.toNat_lt⟩

/-- The 32-bit cell with the IEEE 754 encoding of a single-precision number. -/
def ofSingle (x : Float32) : Cell :=
  word x.toBits

/-! ## Reading cells -/

/-- The word in a 32-bit cell. -/
def toWord (c : Cell) : Except Fault UInt32 :=
  if c.width = 32 then .ok (.ofNat c.bits) else .error (.widthMismatch 32 c.width)

/-- The single-precision number that a 32-bit cell encodes. -/
def toSingle (c : Cell) : Except Fault Float32 :=
  if c.width = 32 then .ok (.ofBits (.ofNat c.bits)) else .error (.unsupportedFloatWidth c.width)

/-- The low eight bits. -/
def lowByte (c : Cell) : UInt8 :=
  .ofNat c.bits

/-- Hexadecimal with as many digits as the width needs: a 9-bit cell has three. -/
def toHex (c : Cell) : String :=
  "0x" ++ hexadecimal ((c.width + 3) / 4) c.bits

/-! ## Changing the width -/

/-- A cell at least as wide with the same signed view. -/
def signExtend (c : Cell) (width : Nat) : Except Fault Cell :=
  if width < c.width then .error (.widthMismatch c.width width) else ofSigned c.signed width

/-- A cell at least as wide with the same unsigned view. -/
def zeroExtend (c : Cell) (width : Nat) : Except Fault Cell :=
  if width < c.width then .error (.widthMismatch c.width width) else ofUnsigned c.bits width

/-- The low `width` bits, or the whole cell if it has no more. -/
def truncate (c : Cell) (width : Nat) : Except Fault Cell := do
  return (← zero (min width c.width)).wrap c.bits

/-! ## Bit fields -/

/-- The bits from `start` to below `stop`, counted from the least significant one, as a number. -/
def field (c : Cell) (start stop : Nat) : Except Fault Nat :=
  if start < stop ∧ stop ≤ c.width then .ok (c.bits / 2 ^ start % 2 ^ (stop - start))
  else .error (.fieldOutOfRange start stop c.width)

/-- The cell with the bits from `start` to below `stop` replaced by the low bits of `n`. -/
def splice (c : Cell) (start stop n : Nat) : Except Fault Cell :=
  if start < stop ∧ stop ≤ c.width then
    .ok (c.wrap (c.bits % 2 ^ start + 2 ^ start * (n % 2 ^ (stop - start)) +
      2 ^ stop * (c.bits / 2 ^ stop) : Nat))
  else
    .error (.fieldOutOfRange start stop c.width)

/-! ## Arithmetic -/

/-- The result of an operation that wants `b` as wide as `a`. -/
def ofSameWidth (a b : Cell) (result : Except Fault Cell) : Except Fault Cell :=
  if b.width = a.width then result else .error (.widthMismatch a.width b.width)

/-- Every bit inverted. -/
def not (c : Cell) : Cell :=
  { c with bits := 2 ^ c.width - 1 - c.bits, bits_lt := by have := c.bits_lt; omega }

/-- The sum modulo `2 ^ width`. -/
def add (a b : Cell) : Except Fault Cell :=
  ofSameWidth a b (.ok (a.wrap (a.bits + b.bits)))

/-- The difference modulo `2 ^ width`. -/
def sub (a b : Cell) : Except Fault Cell :=
  ofSameWidth a b (.ok (a.wrap (a.bits - b.bits)))

/-- The product modulo `2 ^ width`. -/
def mul (a b : Cell) : Except Fault Cell :=
  ofSameWidth a b (.ok (a.wrap (a.bits * b.bits)))

/-- The signed quotient, rounded toward zero. -/
def div (a b : Cell) : Except Fault Cell :=
  ofSameWidth a b <|
    if b.signed = 0 then .error .divideByZero else .ok (a.wrap (a.signed.tdiv b.signed))

/-- The signed remainder, which has the sign of the dividend. -/
def rem (a b : Cell) : Except Fault Cell :=
  ofSameWidth a b <|
    if b.signed = 0 then .error .divideByZero else .ok (a.wrap (a.signed.tmod b.signed))

/-- The bits set in both cells. -/
def and (a b : Cell) : Except Fault Cell :=
  ofSameWidth a b (.ok (a.wrap (a.bits &&& b.bits : Nat)))

/-- The bits set in either cell. -/
def or (a b : Cell) : Except Fault Cell :=
  ofSameWidth a b (.ok (a.wrap (a.bits ||| b.bits : Nat)))

/-- The bits set in exactly one of the cells. -/
def xor (a b : Cell) : Except Fault Cell :=
  ofSameWidth a b (.ok (a.wrap (a.bits ^^^ b.bits : Nat)))

/-- A single-precision operation on two 32-bit cells. -/
def single (f : Float32 → Float32 → Float32) (a b : Cell) : Except Fault Cell :=
  ofSameWidth a b do return ofSingle (f (← a.toSingle) (← b.toSingle))

end Cell

end Eqasm
