import Eqasm.Machine.Datapath
import Eqasm.Proofs.Cell.Views
import Mathlib.Data.Int.ModEq

/-!
# Arithmetic of cells

A cell of `width` bits stands for its residue class modulo `2 ^ width` (`Cell.Represents`), and its
signed view is the only member of the class in the lower and upper half around zero
(`Cell.eq_signed`). Sums, differences and products of cells represent those of the numbers, in
either view; the bitwise operations work on each bit by itself. All operations want cells of one
width.
-/

namespace Eqasm

-- Powers are the ones of the core library, whatever else is in scope.
attribute [local instance (2000)] instPowNat

namespace Cell

/-! ## Residues -/

/-- The cell of `width` bits that holds a number modulo `2 ^ width`. -/
structure Represents (c : Cell) (width : Nat) (z : Int) : Prop where
  width_eq : c.width = width
  bits_eq : (c.bits : Int) = z % (2 ^ width : Nat)

/-- Half of the numbers in the signed view of cells of `width` bits are negative. -/
def InRange (width : Nat) (z : Int) : Prop :=
  -((2 ^ (width - 1) : Nat) : Int) ≤ z ∧ z < (2 ^ (width - 1) : Nat)

instance (width : Nat) (z : Int) : Decidable (InRange width z) :=
  inferInstanceAs (Decidable (_ ∧ _))

variable {a b c d : Cell} {width : Nat} {y z : Int}

theorem signed_inRange (c : Cell) : InRange c.width c.signed := by
  rw [signed_eq]
  exact c.twosComplement_range

theorem signed_modEq (c : Cell) : c.signed ≡ c.bits [ZMOD (2 ^ c.width : Nat)] := by
  rw [signed_eq]
  exact (Int.modEq_iff_dvd.2 c.dvd_twosComplement_sub).symm

/-- **The signed view is the only number in its range** that is congruent to the bits. -/
theorem eq_signed (hz : InRange c.width z) (h : z ≡ c.bits [ZMOD (2 ^ c.width : Nat)]) :
    z = c.signed := by
  obtain ⟨hle, hlt⟩ := hz
  obtain ⟨hle', hlt'⟩ := c.signed_inRange
  have hwidth := c.two_pow_width
  have hdvd := Int.modEq_iff_dvd.1 (c.signed_modEq.trans h.symm)
  have hclose : |z - c.signed| < (2 ^ c.width : Nat) := abs_lt.2 ⟨by omega, by omega⟩
  have hzero := Int.eq_zero_of_abs_lt_dvd hdvd hclose
  omega

theorem bits_modEq (c : Cell) : (c.bits : Int) ≡ c.signed [ZMOD (2 ^ c.width : Nat)] :=
  c.signed_modEq.symm

theorem represents_wrap (c : Cell) (z : Int) : (c.wrap z).Represents c.width z :=
  ⟨rfl, c.bits_wrap z⟩

theorem represents_bits (c : Cell) : c.Represents c.width c.bits :=
  ⟨rfl, (Int.emod_eq_of_lt (Int.natCast_nonneg _) (Int.ofNat_lt.2 c.bits_lt)).symm⟩

theorem Represents.congr (h : c.Represents width y) (hyz : y ≡ z [ZMOD (2 ^ width : Nat)]) :
    c.Represents width z :=
  ⟨h.width_eq, h.bits_eq.trans hyz⟩

/-- There is one cell for a residue. -/
theorem Represents.unique (hc : c.Represents width z) (hd : d.Represents width z) : c = d := by
  have hbits := Int.ofNat_inj.1 (hc.bits_eq.trans hd.bits_eq.symm)
  have hwidth := hc.width_eq.trans hd.width_eq.symm
  cases c
  cases d
  obtain rfl : _ = _ := hbits
  obtain rfl : _ = _ := hwidth
  rfl

theorem Represents.signed_modEq (h : c.Represents width z) :
    c.signed ≡ z [ZMOD (2 ^ width : Nat)] := by
  obtain ⟨rfl, hbits⟩ := h
  refine c.signed_modEq.trans ?_
  rw [hbits]
  exact Int.mod_modEq z _

/-- A number that is in range is the signed view. -/
theorem Represents.signed_eq (h : c.Represents width z) (hz : InRange width z) : c.signed = z := by
  have hbits := c.bits_modEq.trans (h.width_eq ▸ h.signed_modEq)
  exact (Cell.eq_signed (h.width_eq ▸ hz) hbits.symm).symm

/-- Numbers below `2 ^ width` are the bits. -/
theorem Represents.bits_eq_of_lt {n : Nat} (h : c.Represents width n) (hn : n < 2 ^ width) :
    c.bits = n := by
  have hbits := h.bits_eq
  rw [← Int.natCast_emod, Nat.mod_eq_of_lt hn] at hbits
  exact Int.ofNat_inj.1 hbits

/-! ## Results -/

/-- The result of an operation on numbers modulo `2 ^ width`, whichever view the numbers are taken
from. -/
structure IsModular (f : Int → Int → Int) (a b c : Cell) : Prop where
  unsigned : c.Represents a.width (f a.bits b.bits)
  signed : c.Represents a.width (f a.signed b.signed)

/-- The result of an operation on each two bits at the same place. -/
structure IsBitwise (f : Bool → Bool → Bool) (a b c : Cell) : Prop where
  width_eq : c.width = a.width
  testBit_eq : ∀ i, c.bits.testBit i = f (a.bits.testBit i) (b.bits.testBit i)

theorem modEq_signed (h : b.width = a.width) :
    (a.bits : Int) ≡ a.signed [ZMOD (2 ^ a.width : Nat)] ∧
      (b.bits : Int) ≡ b.signed [ZMOD (2 ^ a.width : Nat)] :=
  ⟨a.bits_modEq, h ▸ b.bits_modEq⟩

theorem exists_add (h : b.width = a.width) :
    ∃ c, a.add b = .ok c ∧ IsModular (· + ·) a b c := by
  obtain ⟨ha, hb⟩ := modEq_signed h
  exact ⟨_, if_pos h, a.represents_wrap _, (a.represents_wrap _).congr (ha.add hb)⟩

theorem exists_sub (h : b.width = a.width) :
    ∃ c, a.sub b = .ok c ∧ IsModular (· - ·) a b c := by
  obtain ⟨ha, hb⟩ := modEq_signed h
  exact ⟨_, if_pos h, a.represents_wrap _, (a.represents_wrap _).congr (ha.sub hb)⟩

theorem exists_mul (h : b.width = a.width) :
    ∃ c, a.mul b = .ok c ∧ IsModular (· * ·) a b c := by
  obtain ⟨ha, hb⟩ := modEq_signed h
  exact ⟨_, if_pos h, a.represents_wrap _, (a.represents_wrap _).congr (ha.mul hb)⟩

theorem isBitwise_wrap {f : Bool → Bool → Bool} {n : Nat} (hlt : n < 2 ^ a.width)
    (hbit : ∀ i, n.testBit i = f (a.bits.testBit i) (b.bits.testBit i)) :
    IsBitwise f a b (a.wrap n) :=
  ⟨rfl, fun i => by rw [(a.represents_wrap n).bits_eq_of_lt hlt, hbit]⟩

theorem exists_and (h : b.width = a.width) :
    ∃ c, a.and b = .ok c ∧ IsBitwise (· && ·) a b c := by
  have hlt : a.bits &&& b.bits < 2 ^ a.width := Nat.and_lt_two_pow _ (h ▸ b.bits_lt)
  exact ⟨_, if_pos h, isBitwise_wrap hlt fun i => Nat.testBit_and _ _ i⟩

theorem exists_or (h : b.width = a.width) :
    ∃ c, a.or b = .ok c ∧ IsBitwise (· || ·) a b c := by
  have hlt : a.bits ||| b.bits < 2 ^ a.width := Nat.or_lt_two_pow a.bits_lt (h ▸ b.bits_lt)
  exact ⟨_, if_pos h, isBitwise_wrap hlt fun i => Nat.testBit_or _ _ i⟩

theorem exists_xor (h : b.width = a.width) :
    ∃ c, a.xor b = .ok c ∧ IsBitwise Bool.xor a b c := by
  have hlt : a.bits ^^^ b.bits < 2 ^ a.width := Nat.xor_lt_two_pow a.bits_lt (h ▸ b.bits_lt)
  exact ⟨_, if_pos h, isBitwise_wrap hlt fun i => Nat.testBit_xor _ _ i⟩

/-! ## Complements -/

theorem testBit_not (c : Cell) (i : Nat) :
    c.not.bits.testBit i = (decide (i < c.width) && !c.bits.testBit i) := by
  have hnot : c.not.bits = 2 ^ c.width - (c.bits + 1) := by
    rw [Nat.add_comm, ← Nat.sub_sub]
    rfl
  rw [hnot, Nat.testBit_two_pow_sub_succ c.bits_lt]

theorem not_not (c : Cell) : c.not.not = c := by
  have hlt := c.bits_lt
  have hbits : 2 ^ c.width - 1 - (2 ^ c.width - 1 - c.bits) = c.bits := by omega
  simp only [Cell.not, hbits]

end Cell

/-! ## All operations -/

theorem Cell.ofSameWidth_eq_ok {a b c : Cell} {result : Except Fault Cell} :
    ofSameWidth a b result = .ok c ↔ b.width = a.width ∧ result = .ok c := by
  rw [ofSameWidth]
  split <;> simp [*]

namespace AluOp

variable {a b c : Cell}

/-- Cells of different widths are refused. -/
theorem apply_of_ne (op : AluOp) (h : b.width ≠ a.width) :
    op.apply a b = .error (.widthMismatch a.width b.width) := by
  cases op <;> exact if_neg h

/-- The number whose residue an operation gives. -/
def exact (op : AluOp) (a b : Cell) : Int :=
  match op with
  | .add => a.bits + b.bits
  | .sub => a.bits - b.bits
  | .and => (a.bits &&& b.bits : Nat)
  | .or => (a.bits ||| b.bits : Nat)
  | .xor => (a.bits ^^^ b.bits : Nat)
  | .mul => a.bits * b.bits
  | .div => a.signed.tdiv b.signed
  | .rem => a.signed.tmod b.signed

/-- Divisions by zero are refused, and nothing else is between cells of one width. -/
theorem apply_eq_ok {op : AluOp} : op.apply a b = .ok c ↔
    b.width = a.width ∧ (op = .div ∨ op = .rem → b.signed ≠ 0) ∧ a.wrap (op.exact a b) = c := by
  have hzero (z : Int) :
      (if b.signed = 0 then .error .divideByZero else .ok (a.wrap z) : Except Fault Cell) = .ok c ↔
        b.signed ≠ 0 ∧ a.wrap z = c := by
    split <;> simp [*]
  cases op with
  | div | rem =>
    refine Cell.ofSameWidth_eq_ok.trans (and_congr_right fun _ => (hzero _).trans ?_)
    simp [exact]
  | _ =>
    refine Cell.ofSameWidth_eq_ok.trans (and_congr_right fun _ => ?_)
    simp [exact]

end AluOp

end Eqasm
