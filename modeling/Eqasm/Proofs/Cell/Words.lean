import Eqasm.Proofs.Cell.Arithmetic

/-!
# Arithmetic in words

Cells are computed with in words of 64 bits and double words of 128, in steps that may overflow
(`Checked`). No step of an operation on cells does: the words hold the bits of its result
(`AluOp.inWords_eq`).
-/

namespace Eqasm

-- Powers are the ones of the core library, whatever else is in scope.
attribute [local instance (2000)] instPowNat

/-! ## Steps -/

namespace Checked

variable {n : Nat}

/-- A shift to the left, by less than the number of bits. -/
def shiftLeft (x : BitVec n) (k : Nat) : Option (BitVec n) :=
  if k < n then some (x <<< k) else none

/-- A shift to the right that keeps the sign, by less than the number of bits. -/
def shiftRight (x : BitVec n) (k : Nat) : Option (BitVec n) :=
  if k < n then some (x.sshiftRight k) else none

/-- A sum that fits. -/
def add (x y : BitVec n) : Option (BitVec n) :=
  if x.uaddOverflow y then none else some (x + y)

/-- A difference that is not negative. -/
def sub (x y : BitVec n) : Option (BitVec n) :=
  if x.usubOverflow y then none else some (x - y)

/-- A product that fits. -/
def mul (x y : BitVec n) : Option (BitVec n) :=
  if x.umulOverflow y then none else some (x * y)

/-- The divisor is zero, or the quotient is the one that does not fit: the least number by -1. -/
def Undivided (x y : BitVec n) : Prop :=
  y = 0 ∨ x = BitVec.intMin n ∧ y = -1

instance (x y : BitVec n) : Decidable (Undivided x y) :=
  inferInstanceAs (Decidable (_ ∨ _))

/-- A signed quotient, rounded toward zero. -/
def div (x y : BitVec n) : Option (BitVec n) :=
  if Undivided x y then none else some (x.sdiv y)

/-- A signed remainder. -/
def rem (x y : BitVec n) : Option (BitVec n) :=
  if Undivided x y then none else some (x.srem y)

/-- The word with the lowest `width` bits set. -/
def mask (width : Nat) : Option (BitVec 64) :=
  if 64 ≤ width then some (BitVec.allOnes 64)
  else do sub (← shiftLeft 1 width) 1

/-! What fits is not refused. -/

variable {x y : BitVec n}

theorem exists_add (h : x.toNat + y.toNat < 2 ^ n) :
    ∃ s, add x y = some s ∧ s.toNat = x.toNat + y.toNat := by
  have hfits : ¬ x.uaddOverflow y := by simpa [BitVec.uaddOverflow] using h
  refine ⟨x + y, if_neg hfits, ?_⟩
  rw [BitVec.toNat_add, Nat.mod_eq_of_lt h]

theorem exists_sub (h : y.toNat ≤ x.toNat) :
    ∃ s, sub x y = some s ∧ s.toNat = x.toNat - y.toNat := by
  have hfits : ¬ x.usubOverflow y := by simpa [BitVec.usubOverflow] using h
  exact ⟨x - y, if_neg hfits, BitVec.toNat_sub_of_le h⟩

theorem exists_mul (h : x.toNat * y.toNat < 2 ^ n) :
    ∃ s, mul x y = some s ∧ s.toNat = x.toNat * y.toNat := by
  have hfits : ¬ x.umulOverflow y := by simpa [BitVec.umulOverflow] using h
  refine ⟨x * y, if_neg hfits, ?_⟩
  rw [BitVec.toNat_mul, Nat.mod_eq_of_lt h]

theorem exists_div (hx : x ≠ BitVec.intMin n) (hy : y ≠ 0) :
    ∃ q, div x y = some q ∧ q.toInt = x.toInt.tdiv y.toInt := by
  have hfits : ¬ Undivided x y := fun h => h.elim hy fun h => hx h.1
  exact ⟨x.sdiv y, if_neg hfits, BitVec.toInt_sdiv_of_ne_or_ne x y (.inl hx)⟩

theorem exists_rem (hx : x ≠ BitVec.intMin n) (hy : y ≠ 0) :
    ∃ r, rem x y = some r ∧ r.toInt = x.toInt.tmod y.toInt := by
  have hfits : ¬ Undivided x y := fun h => h.elim hy fun h => hx h.1
  exact ⟨x.srem y, if_neg hfits, BitVec.toInt_srem x y⟩

theorem exists_mask {width : Nat} (h : width ≤ 64) :
    ∃ m, mask width = some m ∧ m.toNat = 2 ^ width - 1 := by
  by_cases hfull : 64 ≤ width
  · obtain rfl : width = 64 := Nat.le_antisymm h hfull
    exact ⟨BitVec.allOnes 64, rfl, BitVec.toNat_allOnes⟩
  · have hlt : 2 ^ width < 2 ^ 64 := Nat.pow_lt_pow_right (by decide) (Nat.not_le.1 hfull)
    have hshift : (1#64 <<< width).toNat = 2 ^ width := by
      have hone : (1#64).toNat = 1 := rfl
      rw [BitVec.toNat_shiftLeft, Nat.shiftLeft_eq, hone, Nat.one_mul, Nat.mod_eq_of_lt hlt]
    obtain ⟨m, hm, htoNat⟩ :=
      @exists_sub 64 (1#64 <<< width) 1#64 (hshift ▸ Nat.two_pow_pos width)
    refine ⟨m, ?_, htoNat.trans (by rw [hshift]; rfl)⟩
    rw [mask, if_neg hfull, shiftLeft, if_pos (Nat.not_le.1 hfull)]
    exact hm

end Checked

namespace Cell

/-- The bits in a word. -/
def toBitVec (c : Cell) : BitVec 64 :=
  .ofNat 64 c.bits

/-- The signed view in a word. -/
def signedInWords (c : Cell) : Option (BitVec 64) := do
  let k ← Checked.sub (64 : BitVec 32) (.ofNat 32 c.width)
  Checked.shiftRight (← Checked.shiftLeft c.toBitVec k.toNat) k.toNat

/-- The complement in words. -/
def notInWords (c : Cell) : Option (BitVec 64) := do
  return ~~~c.toBitVec &&& (← Checked.mask c.width)

end Cell

namespace AluOp

/-- The result of an operation in words, of which only the lowest bits count. -/
def unmasked (op : AluOp) (a b : Cell) : Option (BitVec 64) := do
  let x := a.toBitVec
  let y := b.toBitVec
  match op with
  | .and => return x &&& y
  | .or => return x ||| y
  | .xor => return x ^^^ y
  | .add => return (← Checked.add (x.setWidth 128) (y.setWidth 128)).setWidth 64
  | .sub =>
    -- the complement is one less than the negative number
    let s ← Checked.add (x.setWidth 128) ((← b.notInWords).setWidth 128)
    return (← Checked.add s 1).setWidth 64
  | .mul => return (← Checked.mul (x.setWidth 128) (y.setWidth 128)).setWidth 64
  | .div =>
    let u ← a.signedInWords
    let v ← b.signedInWords
    return (← Checked.div (u.signExtend 128) (v.signExtend 128)).setWidth 64
  | .rem =>
    let u ← a.signedInWords
    let v ← b.signedInWords
    return (← Checked.rem (u.signExtend 128) (v.signExtend 128)).setWidth 64

/-- The result of an operation in words. -/
def inWords (op : AluOp) (a b : Cell) : Option (BitVec 64) := do
  return (← op.unmasked a b) &&& (← Checked.mask a.width)

end AluOp

/-! ## Cells in words -/

namespace Cell

variable {c : Cell}

theorem bits_lt_word (c : Cell) : c.bits < 2 ^ 64 :=
  Nat.lt_of_lt_of_le c.bits_lt (Nat.pow_le_pow_right (by decide) c.width_le)

theorem toNat_toBitVec (c : Cell) : c.toBitVec.toNat = c.bits :=
  BitVec.toNat_ofNat .. |>.trans (Nat.mod_eq_of_lt c.bits_lt_word)

theorem toNat_double (c : Cell) : (c.toBitVec.setWidth 128).toNat = c.bits := by
  rw [BitVec.toNat_setWidth, toNat_toBitVec]
  exact Nat.mod_eq_of_lt (Nat.lt_trans c.bits_lt_word (by decide))

/-- Of a word that is masked, the residue is left. -/
theorem Represents.mask {x m : BitVec 64} (h : c.Represents c.width x.toNat)
    (hm : m.toNat = 2 ^ c.width - 1) : x &&& m = c.toBitVec := by
  have hbits := h.bits_eq
  rw [← Int.natCast_emod, Int.ofNat_inj] at hbits
  refine BitVec.eq_of_toNat_eq ?_
  rw [BitVec.toNat_and, hm, Nat.and_two_pow_sub_one_eq_mod, toNat_toBitVec, hbits]

/-- The lowest bits of a double word are congruent to the whole, with or without sign. -/
theorem modEq_low {x : BitVec 128} {z : Int} (h : (x.toNat : Int) = z ∨ x.toInt = z) :
    ((x.setWidth 64).toNat : Int) ≡ z [ZMOD (2 ^ c.width : Nat)] := by
  have hdvd {n : Nat} (hn : c.width ≤ n) : ((2 ^ c.width : Nat) : Int) ∣ (2 ^ n : Nat) :=
    Int.natCast_dvd_natCast.2 (Nat.pow_dvd_pow 2 hn)
  have hlow : ((x.setWidth 64).toNat : Int) ≡ x.toNat [ZMOD (2 ^ 64 : Nat)] := by
    rw [BitVec.toNat_setWidth, Int.natCast_emod]
    exact Int.mod_modEq _ _
  have hsign : x.toInt ≡ x.toNat [ZMOD (2 ^ 128 : Nat)] := by
    rw [BitVec.toInt_eq_toNat_bmod]
    exact Int.bmod_emod
  refine (hlow.of_dvd (hdvd c.width_le)).trans ?_
  rcases h with rfl | rfl
  · rfl
  · exact (hsign.of_dvd (hdvd (Nat.le_trans c.width_le (by decide)))).symm

/-- Two cells are added in a double word. -/
theorem exists_sum (a b : Cell) :
    ∃ s, Checked.add (a.toBitVec.setWidth 128) (b.toBitVec.setWidth 128) = some s ∧
      s.toNat = a.bits + b.bits := by
  have ha := a.bits_lt_word
  have hb := b.bits_lt_word
  have hsum := @Checked.exists_add 128 (a.toBitVec.setWidth 128) (b.toBitVec.setWidth 128)
  rw [a.toNat_double, b.toNat_double] at hsum
  exact hsum (by omega)

/-- Two cells are multiplied in a double word. -/
theorem exists_product (a b : Cell) :
    ∃ p, Checked.mul (a.toBitVec.setWidth 128) (b.toBitVec.setWidth 128) = some p ∧
      p.toNat = a.bits * b.bits := by
  have hlt : a.bits * b.bits < 2 ^ 64 * 2 ^ 64 := Nat.mul_lt_mul'' a.bits_lt_word b.bits_lt_word
  have hproduct := @Checked.exists_mul 128 (a.toBitVec.setWidth 128) (b.toBitVec.setWidth 128)
  rw [a.toNat_double, b.toNat_double] at hproduct
  exact hproduct hlt

theorem notInWords_eq (c : Cell) : c.notInWords = some c.not.toBitVec := by
  obtain ⟨m, hmask, hm⟩ := Checked.exists_mask c.width_le
  have hmasked : ~~~c.toBitVec &&& m = c.not.toBitVec := by
    refine BitVec.eq_of_getLsbD_eq fun i hi => ?_
    rw [BitVec.getLsbD_and, BitVec.getLsbD_not, ← BitVec.testBit_toNat, ← BitVec.testBit_toNat,
      ← BitVec.testBit_toNat, toNat_toBitVec, toNat_toBitVec, hm, Nat.testBit_two_pow_sub_one,
      testBit_not, decide_eq_true hi, Bool.true_and, Bool.and_comm]
  rw [notInWords, hmask, ← hmasked]
  rfl

/-- The signed view is read by two shifts. -/
theorem exists_signedInWords (c : Cell) :
    ∃ v, c.signedInWords = some v ∧ v.toInt = c.signed := by
  have hpos := c.width_pos
  have hle := c.width_le
  have hwidth : (BitVec.ofNat 32 c.width).toNat = c.width :=
    BitVec.toNat_ofNat .. |>.trans (Nat.mod_eq_of_lt (by omega))
  obtain ⟨k, hk, hknat⟩ := @Checked.exists_sub 32 64 (.ofNat 32 c.width)
    (by rw [hwidth]; exact hle)
  have hshift : k.toNat = 64 - c.width := by
    rw [hknat, hwidth]
    rfl
  have hlt : k.toNat < 64 := by omega
  refine ⟨(c.toBitVec <<< k.toNat).sshiftRight k.toNat, ?_, ?_⟩
  · rw [signedInWords, hk]
    simp only [Checked.shiftLeft, Checked.shiftRight, hlt, if_true, bind, Option.bind]
  · rw [hshift]
    rfl

end Cell

namespace AluOp

variable {a b c : Cell}

/-- The operands of a division, as double words: the quotient fits. -/
theorem exists_operands (hb : b.signed ≠ 0) :
    ∃ u v : BitVec 64, a.signedInWords = some u ∧ b.signedInWords = some v ∧
      (u.signExtend 128).toInt = a.signed ∧ (v.signExtend 128).toInt = b.signed ∧
      u.signExtend 128 ≠ BitVec.intMin 128 ∧ v.signExtend 128 ≠ 0 := by
  obtain ⟨u, hu, hutoInt⟩ := a.exists_signedInWords
  obtain ⟨v, hv, hvtoInt⟩ := b.exists_signedInWords
  have hu128 : (u.signExtend 128).toInt = u.toInt := BitVec.toInt_signExtend_of_le (by decide)
  have hv128 : (v.signExtend 128).toInt = v.toInt := BitVec.toInt_signExtend_of_le (by decide)
  refine ⟨u, v, hu, hv, hu128.trans hutoInt, hv128.trans hvtoInt, fun e => ?_, fun e => ?_⟩
  · have hle := BitVec.le_toInt u
    have hmin : (BitVec.intMin 128).toInt = -2 ^ 127 := by decide
    rw [e, hmin] at hu128
    omega
  · rw [e] at hv128
    exact hb (hvtoInt.symm.trans hv128.symm)

/-- The complement of the operand and one more are added: `2 ^ width` less the operand. -/
theorem exists_difference (h : b.width = a.width) :
    ∃ t : BitVec 128, AluOp.sub.unmasked a b = some (t.setWidth 64) ∧
      (t.toNat : Int) ≡ a.bits - b.bits [ZMOD (2 ^ a.width : Nat)] := by
  have hnot : b.not.bits = 2 ^ b.width - 1 - b.bits := rfl
  have ha := a.bits_lt_word
  have hb := b.bits_lt
  have hb' := b.not.bits_lt_word
  obtain ⟨s, hs, hsum⟩ := a.exists_sum b.not
  have hone : (1 : BitVec 128).toNat = 1 := rfl
  obtain ⟨t, ht, hdiff⟩ := @Checked.exists_add 128 s 1 (by rw [hsum, hone]; omega)
  refine ⟨t, ?_, (Int.modEq_iff_dvd.2 ⟨1, ?_⟩).symm⟩
  · simp only [unmasked, b.notInWords_eq, bind, Option.bind, hs, ht]
    rfl
  · rw [hdiff, hsum, hone, hnot, ← h]
    omega

/-- No step overflows, and the result is right modulo `2 ^ width`. -/
theorem exists_unmasked {op : AluOp} (h : b.width = a.width)
    (hzero : op = .div ∨ op = .rem → b.signed ≠ 0) :
    ∃ x, op.unmasked a b = some x ∧
      (x.toNat : Int) ≡ op.exact a b [ZMOD (2 ^ a.width : Nat)] := by
  cases op with
  | and =>
    have hand : (a.toBitVec &&& b.toBitVec).toNat = a.bits &&& b.bits := by
      rw [BitVec.toNat_and, a.toNat_toBitVec, b.toNat_toBitVec]
    exact ⟨_, rfl, hand ▸ Int.ModEq.refl _⟩
  | or =>
    have hor : (a.toBitVec ||| b.toBitVec).toNat = a.bits ||| b.bits := by
      rw [BitVec.toNat_or, a.toNat_toBitVec, b.toNat_toBitVec]
    exact ⟨_, rfl, hor ▸ Int.ModEq.refl _⟩
  | xor =>
    have hxor : (a.toBitVec ^^^ b.toBitVec).toNat = a.bits ^^^ b.bits := by
      rw [BitVec.toNat_xor, a.toNat_toBitVec, b.toNat_toBitVec]
    exact ⟨_, rfl, hxor ▸ Int.ModEq.refl _⟩
  | add =>
    obtain ⟨s, hs, hsum⟩ := a.exists_sum b
    exact ⟨s.setWidth 64, by rw [unmasked, hs]; rfl, Cell.modEq_low (.inl (by rw [hsum]; rfl))⟩
  | sub =>
    obtain ⟨t, ht, hdiff⟩ := exists_difference h
    exact ⟨t.setWidth 64, ht, (Cell.modEq_low (.inl rfl)).trans hdiff⟩
  | mul =>
    obtain ⟨p, hp, hproduct⟩ := a.exists_product b
    refine ⟨p.setWidth 64, by rw [unmasked, hp]; rfl, Cell.modEq_low (.inl ?_)⟩
    rw [hproduct, Int.natCast_mul]
    rfl
  | div =>
    obtain ⟨u, v, hu, hv, hsigned, hsigned', hleast, hne⟩ :=
      @exists_operands a b (hzero (.inl rfl))
    obtain ⟨q, hq, hquotient⟩ := Checked.exists_div hleast hne
    refine ⟨q.setWidth 64, ?_, Cell.modEq_low (.inr ?_)⟩
    · simp only [unmasked, hu, hv, bind, Option.bind, hq]
      rfl
    · rw [hquotient, hsigned, hsigned']
      rfl
  | rem =>
    obtain ⟨u, v, hu, hv, hsigned, hsigned', hleast, hne⟩ :=
      @exists_operands a b (hzero (.inr rfl))
    obtain ⟨r, hr, hremainder⟩ := Checked.exists_rem hleast hne
    refine ⟨r.setWidth 64, ?_, Cell.modEq_low (.inr ?_)⟩
    · simp only [unmasked, hu, hv, bind, Option.bind, hr]
      rfl
    · rw [hremainder, hsigned, hsigned']
      rfl

/-- **In words no operation overflows**, and the words hold the bits of its result. -/
theorem inWords_eq {op : AluOp} (h : op.apply a b = .ok c) :
    op.inWords a b = some c.toBitVec := by
  obtain ⟨hwidth, hzero, rfl⟩ := apply_eq_ok.1 h
  obtain ⟨x, hx, hcongr⟩ := exists_unmasked hwidth hzero
  obtain ⟨m, hmask, hm⟩ := Checked.exists_mask a.width_le
  rw [inWords, hx, hmask]
  exact congrArg some (((a.represents_wrap _).congr hcongr.symm).mask hm)

end AluOp

namespace Cell

/-- **Arithmetic of cells is arithmetic modulo `2 ^ width`.** The signed view of a cell is the only
number in its range that is congruent to the bits. The complement of a cell is what is missing to
the largest one, and its complement is the cell. Sums, differences and products of two cells of one
width are those of their numbers modulo `2 ^ width`, whichever view the numbers are taken from, and
the bitwise operations combine the bits at each place. Results are as wide as the operands, no step
on words overflows that they are computed in, and operands of different widths are refused. -/
theorem arithmetic_modulo (a : Cell) :
    (InRange a.width a.signed ∧ a.signed ≡ a.bits [ZMOD (2 ^ a.width : Nat)] ∧
      (∀ z, InRange a.width z → z ≡ a.bits [ZMOD (2 ^ a.width : Nat)] → z = a.signed) ∧
      ∃ v, a.signedInWords = some v ∧ v.toInt = a.signed) ∧
    (a.not.width = a.width ∧ a.not.bits = 2 ^ a.width - 1 - a.bits ∧ a.not.not = a ∧
      a.notInWords = some a.not.toBitVec) ∧
    (∀ b : Cell, b.width = a.width →
      (∃ c, a.add b = .ok c ∧ IsModular (· + ·) a b c) ∧
      (∃ c, a.sub b = .ok c ∧ IsModular (· - ·) a b c) ∧
      (∃ c, a.mul b = .ok c ∧ IsModular (· * ·) a b c) ∧
      (∃ c, a.and b = .ok c ∧ IsBitwise (· && ·) a b c) ∧
      (∃ c, a.or b = .ok c ∧ IsBitwise (· || ·) a b c) ∧
      ∃ c, a.xor b = .ok c ∧ IsBitwise Bool.xor a b c) ∧
    (∀ (op : AluOp) (b c : Cell), op.apply a b = .ok c →
      c.width = a.width ∧ c.bits < 2 ^ a.width ∧ op.inWords a b = some c.toBitVec) ∧
    ∀ (op : AluOp) (b : Cell), b.width ≠ a.width →
      op.apply a b = .error (.widthMismatch a.width b.width) := by
  refine ⟨⟨a.signed_inRange, a.signed_modEq, fun z => eq_signed, a.exists_signedInWords⟩,
    ⟨rfl, rfl, a.not_not, a.notInWords_eq⟩, fun b h => ?_, fun op b c h => ?_,
    fun op b h => op.apply_of_ne h⟩
  · exact ⟨exists_add h, exists_sub h, exists_mul h, exists_and h, exists_or h, exists_xor h⟩
  · obtain ⟨-, -, hwrap⟩ := AluOp.apply_eq_ok.1 h
    obtain ⟨hwidth, -⟩ := hwrap ▸ a.represents_wrap (op.exact a b)
    exact ⟨hwidth, hwidth ▸ c.bits_lt, AluOp.inWords_eq h⟩

/-- Of 64 bits, the least number is multiplied by the one with all bits set. A byte is refused. -/
theorem arithmetic_modulo_of_least :
    ∃ a b c : Cell, a.width = 64 ∧ a.bits = 2 ^ 63 ∧ b.width = 64 ∧ b.bits = 2 ^ 64 - 1 ∧
      a.mul b = .ok c ∧ c.bits = 2 ^ 63 ∧ AluOp.mul.inWords a b = some c.toBitVec ∧
      AluOp.mul.apply a (byte 1) = .error (.widthMismatch 64 8) := by
  let a : Cell := ⟨64, 2 ^ 63, by decide, by decide, by decide⟩
  let b : Cell := ⟨64, 2 ^ 64 - 1, by decide, by decide, by decide⟩
  obtain ⟨-, -, hmodular, hresult, hmismatch⟩ := arithmetic_modulo a
  obtain ⟨-, -, ⟨c, hc, hproduct⟩, -⟩ := hmodular b rfl
  obtain ⟨-, -, hwords⟩ := hresult .mul b c hc
  refine ⟨a, b, c, rfl, rfl, rfl, rfl, hc, ?_, hwords, hmismatch .mul (byte 1) (by decide)⟩
  exact Int.ofNat_inj.1 (hproduct.unsigned.bits_eq.trans (by decide))

end Cell

end Eqasm
