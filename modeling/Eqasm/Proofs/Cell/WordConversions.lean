import Eqasm.Proofs.Cell.Conversions

/-!
# Conversions in words

How cells are made of words of 64 bits and extended and truncated in them, by shifts and masks in
steps that may overflow. No step does, and the words hold what the conversions of cells give
(`Cell.ofSignedInWords_eq`, `Cell.ofUnsignedInWords_eq`). So integers, widths and cells are
converted exactly or refused (`Cell.conversions_exact`).
-/

namespace Eqasm

-- Powers are the ones of the core library, whatever else is in scope.
attribute [local instance (2000)] instPowNat

-- To unfold the shifts on a cell that is not known takes too long; `Cell.signed_eq` does without.
attribute [local irreducible] Cell.signed

/-! ## Steps -/

namespace Checked

/-- A negative number that fits. -/
def neg {n : Nat} (x : BitVec n) : Option (BitVec n) :=
  if x.negOverflow then none else some (-x)

/-- A signed difference that fits. -/
def subSigned {n : Nat} (x y : BitVec n) : Option (BitVec n) :=
  if x.ssubOverflow y then none else some (x - y)

/-- Whether a number is beyond the signed view of cells of `width` bits. Those of 64 bits have room
for all numbers in a word. -/
def exceeds (v : BitVec 64) (width : Nat) : Option Bool :=
  if width < 64 then do
    let k ← sub (.ofNat 32 width : BitVec 32) 1
    let half ← shiftLeft (1 : BitVec 64) k.toNat
    let least ← neg half
    let greatest ← subSigned half 1
    return v.slt least || greatest.slt v
  else some false

theorem exists_neg {n : Nat} {x : BitVec n} (h : 0 ≤ x.toInt) :
    ∃ y, neg x = some y ∧ y.toInt = -x.toInt := by
  have hpos : (0 : Int) < 2 ^ (n - 1) := Int.pow_pos (by decide)
  have hfits : ¬ x.negOverflow := by
    rw [BitVec.negOverflow, beq_iff_eq]
    omega
  exact ⟨-x, if_neg hfits, BitVec.toInt_neg_of_not_negOverflow hfits⟩

theorem exists_subSigned {n : Nat} {x y : BitVec n} (hx : 0 ≤ x.toInt) (hy : 0 ≤ y.toInt) :
    ∃ z, subSigned x y = some z ∧ z.toInt = x.toInt - y.toInt := by
  have hx' := @BitVec.toInt_lt n x
  have hy' := @BitVec.toInt_lt n y
  have hfits : ¬ x.ssubOverflow y := by
    rw [BitVec.ssubOverflow, Bool.or_eq_true, decide_eq_true_eq, decide_eq_true_eq]
    omega
  exact ⟨x - y, if_neg hfits, BitVec.toInt_sub_of_not_ssubOverflow hfits⟩

/-- Half of the numbers of `width` bits, in a word. -/
theorem exists_half {width : Nat} (hpos : 0 < width) (hlt : width < 64) :
    ∃ (k : BitVec 32) (half : BitVec 64), sub (.ofNat 32 width : BitVec 32) 1 = some k ∧
      shiftLeft (1 : BitVec 64) k.toNat = some half ∧ half.toInt = (2 ^ (width - 1) : Nat) := by
  have hwidth : (BitVec.ofNat 32 width).toNat = width :=
    BitVec.toNat_ofNat .. |>.trans (Nat.mod_eq_of_lt (by omega))
  obtain ⟨k, hk, hknat⟩ := @exists_sub 32 (.ofNat 32 width) 1 (by rw [hwidth]; exact hpos)
  have hk' : k.toNat = width - 1 := by rw [hknat, hwidth]; rfl
  have hpow : 2 ^ (width - 1) < 2 ^ 63 := Nat.pow_lt_pow_right (by decide) (by omega)
  have hhalf : (1#64 <<< (width - 1)).toNat = 2 ^ (width - 1) := by
    have hone : (1#64).toNat = 1 := rfl
    rw [BitVec.toNat_shiftLeft, Nat.shiftLeft_eq, hone, Nat.one_mul, Nat.mod_eq_of_lt (by omega)]
  refine ⟨k, 1#64 <<< (width - 1), hk, ?_, ?_⟩
  · rw [hk', shiftLeft, if_pos (by omega)]
    rfl
  · rw [BitVec.toInt_eq_toNat_of_lt (by omega), hhalf]

theorem exists_exceeds {width : Nat} (hw : 0 < width ∧ width ≤ 64) (v : BitVec 64) :
    ∃ e, exceeds v width = some e ∧ (e = true ↔ ¬ Cell.InRange width v.toInt) := by
  by_cases hlt : width < 64
  · obtain ⟨k, half, hk, hhalf, hvalue⟩ := exists_half hw.1 hlt
    have hone : (1 : BitVec 64).toInt = 1 := by decide
    have hpos : 0 ≤ half.toInt := by rw [hvalue]; exact Int.natCast_nonneg _
    obtain ⟨least, hleast, hlo⟩ := exists_neg hpos
    obtain ⟨greatest, hgreatest, hhi⟩ := exists_subSigned hpos (hone ▸ Int.one_nonneg)
    refine ⟨v.slt least || greatest.slt v, ?_, ?_⟩
    · simp only [exceeds, if_pos hlt, hk, hhalf, hleast, hgreatest, bind, Option.bind]
      rfl
    · rw [Bool.or_eq_true, BitVec.slt_iff_toInt_lt, BitVec.slt_iff_toInt_lt, hlo, hhi, hone, hvalue,
        Cell.InRange]
      omega
  · obtain rfl : width = 64 := Nat.le_antisymm hw.2 (Nat.not_lt.1 hlt)
    have hrange : Cell.InRange 64 v.toInt := ⟨BitVec.le_toInt v, BitVec.toInt_lt⟩
    exact ⟨false, rfl, by simp [hrange]⟩

end Checked

namespace Cell

variable {c : Cell} {width : Nat}

/-! ## Conversions -/

/-- A cell made of a signed number, in words. -/
def ofSignedInWords (v : BitVec 64) (width : Nat) : Option (Except Fault (BitVec 64)) := do
  let mask ← Checked.mask width
  return if ← Checked.exceeds v width then .error (.valueOutOfRange v.toInt width)
    else .ok (v &&& mask)

/-- A cell made of an unsigned number, in words. -/
def ofUnsignedInWords (n : BitVec 64) (width : Nat) : Option (Except Fault (BitVec 64)) := do
  let mask ← Checked.mask width
  return if n &&& ~~~mask = 0 then .ok n else .error (.valueOutOfRange n.toNat width)

/-- An extension that keeps the signed view, in words. -/
def signExtendInWords (c : Cell) (width : Nat) : Option (Except Fault (BitVec 64)) :=
  if width < c.width then some (.error (.widthMismatch c.width width))
  else do ofSignedInWords (← c.signedInWords) width

/-- An extension that keeps the unsigned view, in words. -/
def zeroExtendInWords (c : Cell) (width : Nat) : Option (Except Fault (BitVec 64)) :=
  if width < c.width then some (.error (.widthMismatch c.width width))
  else ofUnsignedInWords c.toBitVec width

/-- The low bits, in words. -/
def truncateInWords (c : Cell) (width : Nat) : Option (BitVec 64) := do
  return c.toBitVec &&& (← Checked.mask (min width c.width))

/-- Both views of a word are congruent modulo what cells of `width` bits can tell apart. -/
theorem toInt_modEq_toNat (h : width ≤ 64) (x : BitVec 64) :
    x.toInt ≡ x.toNat [ZMOD (2 ^ width : Nat)] := by
  have hsign : x.toInt ≡ x.toNat [ZMOD (2 ^ 64 : Nat)] := by
    rw [BitVec.toInt_eq_toNat_bmod]
    exact Int.bmod_emod
  exact hsign.of_dvd (Int.natCast_dvd_natCast.2 (Nat.pow_dvd_pow 2 h))

/-- No bit is set above the mask of `width` bits. -/
theorem and_not_mask_eq_zero_iff {x m : BitVec 64} (hm : m.toNat = 2 ^ width - 1) :
    x &&& ~~~m = 0 ↔ x.toNat < 2 ^ width := by
  have hbit (i : Nat) (hi : i < 64) :
      (x &&& ~~~m).getLsbD i = (x.toNat.testBit i && !decide (i < width)) := by
    rw [BitVec.getLsbD_and, BitVec.getLsbD_not, ← BitVec.testBit_toNat, ← BitVec.testBit_toNat, hm,
      Nat.testBit_two_pow_sub_one, decide_eq_true hi, Bool.true_and]
  constructor
  · intro h
    refine Nat.lt_pow_two_of_testBit _ fun i hi => ?_
    by_cases hlt : i < 64
    · have hnone := hbit i hlt
      rw [h, decide_eq_false (Nat.not_lt.2 hi), Bool.not_false, Bool.and_true] at hnone
      exact hnone.symm.trans BitVec.getLsbD_zero
    · exact BitVec.testBit_toNat x ▸ BitVec.getLsbD_of_ge x i (Nat.not_lt.1 hlt)
  · intro h
    refine BitVec.eq_of_getLsbD_eq fun i hi => ?_
    rw [hbit i hi]
    by_cases hlt : i < width
    · simp [hlt]
    · rw [testBit_of_lt h (Nat.not_lt.1 hlt), Bool.false_and]
      exact BitVec.getLsbD_zero.symm

theorem ofSignedInWords_eq (hw : 0 < width ∧ width ≤ 64) (v : BitVec 64) :
    ofSignedInWords v width = some ((ofSigned v.toInt width).map toBitVec) := by
  obtain ⟨m, hmask, hm⟩ := Checked.exists_mask hw.2
  obtain ⟨e, hexceeds, he⟩ := Checked.exists_exceeds hw v
  simp only [ofSignedInWords, hmask, hexceeds, bind, Option.bind]
  by_cases hv : InRange width v.toInt
  · obtain ⟨c, hc⟩ := (exists_ofSigned_iff hw).2 hv
    obtain ⟨rfl, hsigned⟩ := ofSigned_eq_ok.1 hc
    have hrepresents := c.represents_signed
    rw [hsigned] at hrepresents
    have hbits := (hrepresents.congr (toInt_modEq_toNat hw.2 v)).mask hm
    rw [if_neg fun h => he.1 h hv, hbits, hc]
    rfl
  · rw [if_pos (he.2 hv), ofSigned_of_not_inRange hw hv]
    rfl

theorem ofUnsignedInWords_eq (hw : 0 < width ∧ width ≤ 64) (n : BitVec 64) :
    ofUnsignedInWords n width = some ((ofUnsigned n.toNat width).map toBitVec) := by
  obtain ⟨m, hmask, hm⟩ := Checked.exists_mask hw.2
  simp only [ofUnsignedInWords, hmask, bind, Option.bind]
  by_cases hn : n.toNat < 2 ^ width
  · obtain ⟨c, hc⟩ := (exists_ofUnsigned_iff hw).2 hn
    obtain ⟨-, hbits⟩ := ofUnsigned_eq_ok.1 hc
    have hword : c.toBitVec = n := by rw [toBitVec, hbits, BitVec.ofNat_toNat, BitVec.setWidth_eq]
    rw [if_pos ((and_not_mask_eq_zero_iff hm).2 hn), hc, ← hword]
    rfl
  · rw [if_neg (mt (and_not_mask_eq_zero_iff hm).1 hn), ofUnsigned_of_le hw (Nat.not_lt.1 hn)]
    rfl

theorem signExtendInWords_eq (c : Cell) (hw : 0 < width ∧ width ≤ 64) :
    c.signExtendInWords width = some ((c.signExtend width).map toBitVec) := by
  obtain ⟨v, hv, hsigned⟩ := c.exists_signedInWords
  rw [signExtendInWords, signExtend, hv]
  split
  · rfl
  · exact (ofSignedInWords_eq hw v).trans (by rw [hsigned])

theorem zeroExtendInWords_eq (c : Cell) (hw : 0 < width ∧ width ≤ 64) :
    c.zeroExtendInWords width = some ((c.zeroExtend width).map toBitVec) := by
  rw [zeroExtendInWords, zeroExtend]
  split
  · rfl
  · rw [ofUnsignedInWords_eq hw, toNat_toBitVec]

theorem truncateInWords_eq {t : Cell} (ht : c.truncate width = .ok t) :
    c.truncateInWords width = some t.toBitVec := by
  obtain ⟨hwidth, hbits⟩ := truncate_eq_ok.1 ht
  obtain ⟨m, hmask, hm⟩ := Checked.exists_mask t.width_le
  have hrepresents : t.Represents t.width c.toBitVec.toNat := by
    rw [toNat_toBitVec]
    exact represents_natCast.2 ⟨rfl, hwidth ▸ hbits⟩
  rw [truncateInWords, ← hwidth, hmask]
  exact congrArg some (hrepresents.mask hm)

/-- **Conversions are exact or refused.** Cells are made of exactly the signed and of exactly the
unsigned numbers that fit, and show them again. Extensions to as many bits or more succeed and keep
their view; they can be made in steps, and truncation undoes them. Extensions to fewer bits fail.
What is left by a truncation is the number modulo a power of two. All cells have the width that is
asked for and no bit set above it, and computed in words, without overflow, all comes to the
same. -/
theorem conversions_exact {w w' : Nat} (hw : 0 < w) (hle : w ≤ w') (hw' : w' ≤ 64) :
    (∀ v : Int, ((∃ c, ofSigned v w = .ok c) ↔ InRange w v) ∧
      ∀ c, ofSigned v w = .ok c → c.OfWidth w ∧ c.signed = v) ∧
    (∀ u : Nat, ((∃ c, ofUnsigned u w = .ok c) ↔ u < 2 ^ w) ∧
      ∀ c, ofUnsigned u w = .ok c → c.OfWidth w ∧ c.bits = u) ∧
    (∀ c : Cell, c.width = w →
      (∃ s, Extended signExtend signed c w' s) ∧ (∃ z, Extended zeroExtend bits c w' z) ∧
      (∀ k < w, c.signExtend k = .error (.widthMismatch w k) ∧
        c.zeroExtend k = .error (.widthMismatch w k)) ∧
      ∀ k, 0 < k → ∃ t, c.truncate k = .ok t ∧ t.OfWidth (min k w) ∧
        t.bits = c.bits % 2 ^ min k w ∧ c.truncateInWords k = some t.toBitVec) ∧
    (∀ x : BitVec 64, ofSignedInWords x w = some ((ofSigned x.toInt w).map toBitVec) ∧
      ofUnsignedInWords x w = some ((ofUnsigned x.toNat w).map toBitVec)) ∧
    ∀ c : Cell, c.signExtendInWords w = some ((c.signExtend w).map toBitVec) ∧
      c.zeroExtendInWords w = some ((c.zeroExtend w).map toBitVec) := by
  have hwidth : 0 < w ∧ w ≤ 64 := ⟨hw, Nat.le_trans hle hw'⟩
  refine ⟨fun v => ⟨exists_ofSigned_iff hwidth, fun c hc => ?_⟩,
    fun u => ⟨exists_ofUnsigned_iff hwidth, fun c hc => ?_⟩, fun c hc => ?_,
    fun x => ⟨ofSignedInWords_eq hwidth x, ofUnsignedInWords_eq hwidth x⟩,
    fun c => ⟨c.signExtendInWords_eq hwidth, c.zeroExtendInWords_eq hwidth⟩⟩
  · obtain ⟨h, hsigned⟩ := ofSigned_eq_ok.1 hc
    exact ⟨ofWidth h, hsigned⟩
  · obtain ⟨h, hbits⟩ := ofUnsigned_eq_ok.1 hc
    exact ⟨ofWidth h, hbits⟩
  · subst hc
    refine ⟨exists_signExtend hle hw', exists_zeroExtend hle hw',
      fun k hk => ⟨isView_signed.extend_of_lt hk, isView_bits.extend_of_lt hk⟩, fun k hk => ?_⟩
    obtain ⟨t, ht⟩ := c.exists_truncate hk
    obtain ⟨h, hbits⟩ := truncate_eq_ok.1 ht
    exact ⟨t, ht, ofWidth h, hbits, truncateInWords_eq ht⟩

/-- One bit has room for -1 and not for 1. Extended to 64 bits, all of them are set. -/
theorem conversions_exact_of_bit :
    ∃ c s : Cell, ofSigned (-1) 1 = .ok c ∧ c.signExtend 64 = .ok s ∧ s.bits = 2 ^ 64 - 1 ∧
      s.truncate 1 = .ok c ∧ (¬ ∃ d, ofSigned 1 1 = .ok d) ∧
      ofSignedInWords (-1) 1 = some (.ok c.toBitVec) := by
  obtain ⟨hsigned, -, hextended, hwords, -⟩ :=
    @conversions_exact 1 64 (by decide) (by decide) (by decide)
  obtain ⟨c, hc⟩ := (hsigned (-1)).1.2 (by decide)
  obtain ⟨⟨hwidth, -⟩, hview⟩ := (hsigned (-1)).2 c hc
  obtain ⟨⟨s, hs⟩, -⟩ := hextended c hwidth
  have hbits := s.represents_signed.bits_eq
  rw [hs.view_eq, hview, hs.ofWidth.width_eq] at hbits
  refine ⟨c, s, hc, hs.extend_eq, Int.ofNat_inj.1 (hbits.trans (by decide)),
    hwidth ▸ hs.truncate_eq, fun h => ?_, ?_⟩
  · exact absurd ((hsigned 1).1.1 h) (by decide)
  · exact (hwords (-1)).1.trans (by rw [show (-1 : BitVec 64).toInt = -1 from rfl, hc]; rfl)

end Cell

end Eqasm
