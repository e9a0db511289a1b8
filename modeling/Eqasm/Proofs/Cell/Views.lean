import Eqasm.Flag
import Mathlib.Tactic.Ring

/-!
# Views of cells

The signed view of a cell is its two's complement: a cell whose first bit is set stands for a
negative number (`Cell.signed_eq`). So the flags of a comparison say how the numbers in the cells
compare (`Relation.holds_iff`). A field of bits is replaced digit by digit (`Cell.exists_splice`).
-/

namespace Eqasm

-- Powers are the ones of the core library, whatever else is in scope.
attribute [local instance (2000)] instPowNat

/-- Two digits are less than the product of their bases. -/
theorem add_mul_lt_mul {a b m n : Nat} (ha : a < m) (hb : b < n) : a + m * b < m * n :=
  calc a + m * b < m + m * b := Nat.add_lt_add_right ha (m * b)
    _ = m * (b + 1) := by rw [Nat.mul_add, Nat.mul_one, Nat.add_comm]
    _ ≤ m * n := Nat.mul_le_mul_left m hb

namespace Cell

/-- The two's complement: patterns of the upper half stand for negative numbers. -/
def twosComplement (c : Cell) : Int :=
  if c.bits < 2 ^ (c.width - 1) then c.bits else c.bits - (2 ^ c.width : Nat)

theorem two_pow_width (c : Cell) : 2 ^ c.width = 2 * 2 ^ (c.width - 1) := by
  rw [← Nat.pow_succ', Nat.succ_eq_add_one, Nat.sub_add_cancel c.width_pos]

/-- Half of the patterns stand for negative numbers. -/
theorem twosComplement_range (c : Cell) : -((2 ^ (c.width - 1) : Nat) : Int) ≤ c.twosComplement ∧
    c.twosComplement < (2 ^ (c.width - 1) : Nat) := by
  have hwidth := c.two_pow_width
  have hbits := c.bits_lt
  unfold twosComplement
  split <;> omega

theorem dvd_twosComplement_sub (c : Cell) :
    ((2 ^ c.width : Nat) : Int) ∣ c.twosComplement - c.bits := by
  unfold twosComplement
  split
  · simp
  · exact ⟨-1, by ring⟩

/-- At the top of a word, the bits are congruent to the two's complement. -/
theorem bmod_shiftLeft (c : Cell) :
    Int.bmod ((c.bits <<< (64 - c.width) : Nat) : Int) (2 ^ 64) =
      c.twosComplement * (2 ^ (64 - c.width) : Nat) := by
  -- the bounds of the two's complement, half of `2 ^ width`, become those of a word
  have hword : 2 ^ 64 = 2 * (2 ^ (c.width - 1) * 2 ^ (64 - c.width)) := by
    rw [← Nat.mul_assoc, ← two_pow_width, ← Nat.pow_add, Nat.add_sub_cancel' c.width_le]
  have hpos : (0 : Int) < (2 ^ (64 - c.width) : Nat) :=
    Int.natCast_pos.2 (Nat.two_pow_pos (64 - c.width))
  obtain ⟨hle, hlt⟩ := c.twosComplement_range
  have hge := Int.mul_le_mul_of_nonneg_right hle hpos.le
  have hlt := Int.mul_lt_mul_of_pos_right hlt hpos
  rw [Int.neg_mul, ← Int.natCast_mul] at hge
  rw [← Int.natCast_mul] at hlt
  obtain ⟨k, hk⟩ := c.dvd_twosComplement_sub
  refine (Int.bmod_eq_iff (by decide)).2 ⟨?_, ?_, k, ?_⟩
  · rw [hword]
    omega
  · rw [hword]
    omega
  · rw [two_pow_width] at hk
    rw [Nat.shiftLeft_eq, hword, Int.natCast_mul c.bits, ← Int.sub_mul, hk]
    push_cast
    ring

/-- **The signed view is the two's complement.** -/
theorem signed_eq (c : Cell) : c.signed = c.twosComplement := by
  have hpos : ((2 ^ (64 - c.width) : Nat) : Int) ≠ 0 := by
    have := Nat.two_pow_pos (64 - c.width)
    omega
  have hbits : c.bits < 2 ^ 64 :=
    Nat.lt_of_lt_of_le c.bits_lt (Nat.pow_le_pow_right (by decide) c.width_le)
  rw [signed, BitVec.toInt_sshiftRight, BitVec.toInt_shiftLeft, BitVec.toNat_ofNat,
    Nat.mod_eq_of_lt hbits, bmod_shiftLeft, Int.shiftRight_eq_div_pow, Int.mul_ediv_cancel _ hpos]

theorem bits_wrap (c : Cell) (z : Int) : ((c.wrap z).bits : Int) = z % (2 ^ c.width : Nat) := by
  have hpos : ((2 ^ c.width : Nat) : Int) ≠ 0 := Int.natCast_ne_zero.2 (Nat.two_pow_pos _).ne'
  have hpow : ((2 ^ c.width : Nat) : Int) = 2 ^ c.width := Int.natCast_pow 2 c.width
  rw [hpow] at hpos ⊢
  exact Int.toNat_of_nonneg (Int.emod_nonneg z hpos)

/-- There are blank cells of 1 to 64 bits. -/
theorem exists_zero {width : Nat} (hw : 0 < width ∧ width ≤ 64) :
    ∃ blank, zero width = .ok blank ∧ blank.width = width :=
  ⟨_, by rw [zero, dif_pos hw], rfl⟩

/-- A number between the bounds of the signed view has a cell. -/
theorem exists_ofSigned {width : Nat} (hw : 0 < width ∧ width ≤ 64) {v : Int}
    (hv : -((2 ^ (width - 1) : Nat) : Int) ≤ v ∧ v < (2 ^ (width - 1) : Nat)) :
    ∃ c, ofSigned v width = .ok c ∧ c.width = width ∧ (c.bits : Int) = v % (2 ^ width : Nat) := by
  obtain ⟨blank, hblank, rfl⟩ := exists_zero hw
  refine ⟨blank.wrap v, ?_, rfl, blank.bits_wrap v⟩
  rw [Int.natCast_pow] at hv
  rw [ofSigned, hblank]
  exact if_pos hv

/-- The bits below a field, the new field and the bits above fit into the cell. -/
theorem exists_splice {x : Cell} {start stop : Nat} (h : start < stop ∧ stop ≤ x.width)
    (n : Nat) : ∃ c, x.splice start stop n = .ok c ∧ c.width = x.width ∧
      c.bits = x.bits % 2 ^ start + 2 ^ start * (n % 2 ^ (stop - start)) +
        2 ^ stop * (x.bits / 2 ^ stop) := by
  refine ⟨_, if_pos h, rfl, ?_⟩
  have hwrap := x.bits_wrap (x.bits % 2 ^ start + 2 ^ start * (n % 2 ^ (stop - start)) +
    2 ^ stop * (x.bits / 2 ^ stop) : Nat)
  rw [← Int.natCast_emod] at hwrap
  refine (Int.ofNat_inj.1 hwrap).trans (Nat.mod_eq_of_lt ?_)
  have hstop : 2 ^ start * 2 ^ (stop - start) = 2 ^ stop := by
    rw [← Nat.pow_add, Nat.add_sub_cancel' h.1.le]
  have hwidth : 2 ^ stop * 2 ^ (x.width - stop) = 2 ^ x.width := by
    rw [← Nat.pow_add, Nat.add_sub_cancel' h.2]
  have hlow := add_mul_lt_mul (Nat.mod_lt x.bits (Nat.two_pow_pos start))
    (Nat.mod_lt n (Nat.two_pow_pos (stop - start)))
  have hhigh : x.bits / 2 ^ stop < 2 ^ (x.width - stop) :=
    Nat.div_lt_of_lt_mul (hwidth ▸ x.bits_lt)
  rw [hstop] at hlow
  rw [← hwidth]
  exact add_mul_lt_mul hlow hhigh

end Cell

namespace Relation

/-- What a relation says about two cells: about their patterns, about these as unsigned numbers, or
about their two's complements. -/
def Meaning (r : Relation) (a b : Cell) : Prop :=
  match r with
  | .eq => a.bits = b.bits
  | .ne => a.bits ≠ b.bits
  | .ltu => a.bits < b.bits
  | .geu => b.bits ≤ a.bits
  | .leu => a.bits ≤ b.bits
  | .gtu => b.bits < a.bits
  | .lt => a.twosComplement < b.twosComplement
  | .ge => b.twosComplement ≤ a.twosComplement
  | .le => a.twosComplement ≤ b.twosComplement
  | .gt => b.twosComplement < a.twosComplement

/-- **A flag is set exactly if its relation holds between the numbers in the cells.** -/
theorem holds_iff {a b : Cell} (h : a.width = b.width) (r : Relation) :
    r.holds a b = true ↔ r.Meaning a b := by
  have heq : a = b ↔ a.bits = b.bits := by
    cases a
    cases b
    obtain rfl := h
    simp
  cases r <;> simp [holds, Meaning, Cell.signed_eq, heq]

end Relation

end Eqasm
