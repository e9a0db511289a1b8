import Eqasm.Proofs.Cell.Division
import Eqasm.Proofs.Cell.Words
import Eqasm.Proofs.Except

/-!
# Conversions of cells

A cell is made of a number if there is one that shows it, and that cell is the only one
(`Cell.ofSigned_eq_ok`, `Cell.ofUnsigned_eq_ok`). An extension makes the wider cell with the same
view of the number, whichever view it is (`Cell.IsView`). So extensions can be made in steps, and
truncation, which keeps the number modulo a power of two (`Cell.truncate_eq_ok`), undoes them
(`Cell.IsView.extended`).
-/

namespace Eqasm

-- Powers are the ones of the core library, whatever else is in scope.
attribute [local instance (2000)] instPowNat

-- To unfold the shifts on a cell that is not known takes too long; `Cell.signed_eq` does without.
attribute [local irreducible] Cell.signed

namespace Cell

variable {c d : Cell} {width n : Nat} {v : Int}

/-! ## Cells by their views -/

/-- A cell of `width` bits, with no bit set above them. -/
structure OfWidth (c : Cell) (width : Nat) : Prop where
  width_eq : c.width = width
  testBit_eq : ∀ i, width ≤ i → c.bits.testBit i = false

/-- A number below `2 ^ width` has no bit from there on. -/
theorem testBit_of_lt {i : Nat} (hn : n < 2 ^ width) (hi : width ≤ i) : n.testBit i = false :=
  Nat.testBit_lt_two_pow (Nat.lt_of_lt_of_le hn (Nat.pow_le_pow_right (by decide) hi))

theorem ofWidth (h : c.width = width) : c.OfWidth width :=
  ⟨h, fun _ hi => testBit_of_lt c.bits_lt (h.symm ▸ hi)⟩

theorem eq_of_bits_eq (hwidth : c.width = d.width) (hbits : c.bits = d.bits) : c = d :=
  c.represents_bits.unique (hwidth ▸ hbits ▸ d.represents_bits)

theorem represents_natCast : c.Represents width n ↔ c.width = width ∧ c.bits = n % 2 ^ width := by
  have hbits : c.bits = n % 2 ^ width ↔ (c.bits : Int) = n % (2 ^ width : Nat) := by
    rw [← Int.natCast_emod, Int.ofNat_inj]
  rw [hbits]
  exact ⟨fun h => ⟨h.width_eq, h.bits_eq⟩, fun h => ⟨h.1, h.2⟩⟩

/-! ## What conversions give -/

theorem zero_eq_ok : zero width = .ok c ↔ c.width = width ∧ c.bits = 0 := by
  constructor
  · intro h
    rw [zero] at h
    split at h
    · cases h
      exact ⟨rfl, rfl⟩
    · cases h
  · rintro ⟨rfl, hbits⟩
    rw [zero, dif_pos ⟨c.width_pos, c.width_le⟩]
    exact congrArg Except.ok (eq_of_bits_eq rfl hbits.symm)

/-- **The cell with an unsigned view.** -/
theorem ofUnsigned_eq_ok : ofUnsigned n width = .ok c ↔ c.width = width ∧ c.bits = n := by
  constructor
  · intro h
    rw [ofUnsigned] at h
    split at h
    · split at h
      · cases h
        exact ⟨rfl, rfl⟩
      · cases h
    · cases h
  · rintro ⟨rfl, rfl⟩
    rw [ofUnsigned, dif_pos ⟨c.width_pos, c.width_le⟩, dif_pos c.bits_lt]

/-- **The cell with a signed view.** -/
theorem ofSigned_eq_ok : ofSigned v width = .ok c ↔ c.width = width ∧ c.signed = v := by
  constructor
  · intro h
    obtain ⟨blank, hblank, h⟩ := except_bind_eq_ok.1 h
    obtain ⟨rfl, -⟩ := zero_eq_ok.1 hblank
    split at h
    · next hrange =>
      cases h
      refine ⟨rfl, (blank.represents_wrap v).signed_eq ?_⟩
      rwa [InRange, Int.natCast_pow]
    · cases h
  · rintro ⟨rfl, rfl⟩
    obtain ⟨d, hd, hwidth, hbits⟩ := exists_ofSigned ⟨c.width_pos, c.width_le⟩ c.signed_inRange
    rw [hd, Represents.unique ⟨hwidth, hbits⟩ c.represents_signed]

/-- **The low bits.** -/
theorem truncate_eq_ok : c.truncate width = .ok d ↔
    d.width = min width c.width ∧ d.bits = c.bits % 2 ^ min width c.width := by
  rw [← represents_natCast]
  constructor
  · intro h
    obtain ⟨blank, hblank, h⟩ := except_bind_eq_ok.1 h
    obtain ⟨hwidth, -⟩ := zero_eq_ok.1 hblank
    cases h
    exact hwidth ▸ blank.represents_wrap c.bits
  · intro h
    obtain ⟨blank, hblank, hwidth⟩ :=
      exists_zero ⟨h.width_eq ▸ d.width_pos, h.width_eq ▸ d.width_le⟩
    rw [truncate, hblank]
    exact congrArg Except.ok ((hwidth ▸ blank.represents_wrap c.bits).unique h)

/-! ## Refusals -/

theorem ofSigned_of_not_inRange (hw : 0 < width ∧ width ≤ 64) (hv : ¬ InRange width v) :
    ofSigned v width = .error (.valueOutOfRange v width) := by
  obtain ⟨blank, hblank, -⟩ := exists_zero hw
  rw [InRange, Int.natCast_pow] at hv
  rw [ofSigned, hblank]
  exact if_neg hv

theorem ofUnsigned_of_le (hw : 0 < width ∧ width ≤ 64) (hn : 2 ^ width ≤ n) :
    ofUnsigned n width = .error (.valueOutOfRange n width) := by
  rw [ofUnsigned, dif_pos hw, dif_neg (Nat.not_lt.2 hn)]

/-! ## Existence -/

theorem exists_ofSigned_iff (hw : 0 < width ∧ width ≤ 64) :
    (∃ c, ofSigned v width = .ok c) ↔ InRange width v := by
  constructor
  · rintro ⟨c, hc⟩
    obtain ⟨rfl, rfl⟩ := ofSigned_eq_ok.1 hc
    exact c.signed_inRange
  · intro hv
    obtain ⟨c, hc, -⟩ := exists_ofSigned hw hv
    exact ⟨c, hc⟩

theorem exists_ofUnsigned_iff (hw : 0 < width ∧ width ≤ 64) :
    (∃ c, ofUnsigned n width = .ok c) ↔ n < 2 ^ width := by
  constructor
  · rintro ⟨c, hc⟩
    obtain ⟨rfl, rfl⟩ := ofUnsigned_eq_ok.1 hc
    exact c.bits_lt
  · intro hn
    exact ⟨⟨width, n, hw.1, hw.2, hn⟩, ofUnsigned_eq_ok.2 ⟨rfl, rfl⟩⟩

theorem exists_truncate (c : Cell) (hw : 0 < width) : ∃ t, c.truncate width = .ok t := by
  have hpos : 0 < min width c.width := Nat.lt_min.2 ⟨hw, c.width_pos⟩
  have hle : min width c.width ≤ 64 := Nat.le_trans (Nat.min_le_right _ _) c.width_le
  have hlt := Nat.mod_lt c.bits (Nat.two_pow_pos (min width c.width))
  exact ⟨⟨_, _, hpos, hle, hlt⟩, truncate_eq_ok.2 ⟨rfl, rfl⟩⟩

/-! ## Extensions -/

/-- A view that decides the bits of a cell, with the cells that are made to show something in it
and the extension that keeps it. -/
structure IsView {α : Type} (view : Cell → α) (make : α → Nat → Except Fault Cell)
    (extend : Cell → Nat → Except Fault Cell) : Prop where
  make_eq_ok : ∀ {a width c}, make a width = .ok c ↔ c.width = width ∧ view c = a
  extend_eq : ∀ c width, extend c width =
    if width < c.width then .error (.widthMismatch c.width width) else make (view c) width
  bits_modEq : ∀ {c d : Cell}, c.width ≤ d.width → view d = view c →
    (d.bits : Int) ≡ c.bits [ZMOD (2 ^ c.width : Nat)]

theorem isView_signed : IsView signed ofSigned signExtend where
  make_eq_ok := ofSigned_eq_ok
  extend_eq _ _ := rfl
  bits_modEq {c d} hle hview := by
    have hcongr := d.bits_modEq.of_dvd (Int.natCast_dvd_natCast.2 (Nat.pow_dvd_pow 2 hle))
    rw [hview] at hcongr
    exact hcongr.trans c.signed_modEq

theorem isView_bits : IsView bits ofUnsigned zeroExtend where
  make_eq_ok := ofUnsigned_eq_ok
  extend_eq _ _ := rfl
  bits_modEq _ hview := by rw [hview]

/-- A cell extended to `wide` bits, which keeps what a view shows of it. It can be extended further
as the cell itself, and truncation gives the cell back. -/
structure Extended {α : Type} (extend : Cell → Nat → Except Fault Cell) (view : Cell → α)
    (c : Cell) (wide : Nat) (d : Cell) : Prop where
  extend_eq : extend c wide = .ok d
  ofWidth : d.OfWidth wide
  view_eq : view d = view c
  truncate_eq : d.truncate c.width = .ok c
  further : ∀ wider, wide ≤ wider → extend d wider = extend c wider

section

variable {α : Type} {view : Cell → α} {make : α → Nat → Except Fault Cell}
  {extend : Cell → Nat → Except Fault Cell} (h : IsView view make extend)
include h

/-- **Extensions keep the view**, in one step or in more, and truncation undoes them. -/
theorem IsView.extended (hle : c.width ≤ width) (hd : make (view c) width = .ok d) :
    Extended extend view c width d := by
  obtain ⟨rfl, hview⟩ := h.make_eq_ok.1 hd
  have hmin : min c.width d.width = c.width := Nat.min_eq_left hle
  refine ⟨?_, ofWidth rfl, hview, ?_, fun wider hwider => ?_⟩
  · rw [h.extend_eq, if_neg (Nat.not_lt.2 hle), hd]
  · rw [truncate_eq_ok, hmin, ← represents_natCast]
    exact c.represents_bits.congr (h.bits_modEq hle hview).symm
  · rw [h.extend_eq, h.extend_eq, hview, if_neg (Nat.not_lt.2 hwider),
      if_neg (Nat.not_lt.2 (Nat.le_trans hle hwider))]

/-- Cells cannot be extended to fewer bits. -/
theorem IsView.extend_of_lt (hlt : width < c.width) :
    extend c width = .error (.widthMismatch c.width width) := by
  rw [h.extend_eq, if_pos hlt]

end

/-- Wider cells have room for more numbers. -/
theorem InRange.mono {wide : Nat} (h : InRange width v) (hle : width ≤ wide) : InRange wide v := by
  have hpow : 2 ^ (width - 1) ≤ 2 ^ (wide - 1) :=
    Nat.pow_le_pow_right (by decide) (Nat.sub_le_sub_right hle 1)
  obtain ⟨hlo, hhi⟩ := h
  constructor <;> omega

theorem exists_signExtend (hle : c.width ≤ width) (hw : width ≤ 64) :
    ∃ s, Extended signExtend signed c width s := by
  obtain ⟨s, hs⟩ := (exists_ofSigned_iff ⟨Nat.lt_of_lt_of_le c.width_pos hle, hw⟩).2
    (c.signed_inRange.mono hle)
  exact ⟨s, isView_signed.extended hle hs⟩

theorem exists_zeroExtend (hle : c.width ≤ width) (hw : width ≤ 64) :
    ∃ z, Extended zeroExtend bits c width z := by
  obtain ⟨z, hz⟩ := (exists_ofUnsigned_iff ⟨Nat.lt_of_lt_of_le c.width_pos hle, hw⟩).2
    (Nat.lt_of_lt_of_le c.bits_lt (Nat.pow_le_pow_right (by decide) hle))
  exact ⟨z, isView_bits.extended hle hz⟩

end Cell

end Eqasm
