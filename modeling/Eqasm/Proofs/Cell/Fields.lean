import Eqasm.Proofs.Cell.Conversions
import Eqasm.Proofs.Cell.Words

/-!
# Fields of cells

A field is read and replaced bit by bit (`Cell.field_eq_ok`, `Cell.splice_eq_ok`), and what is left
out of a splice stays. So fields are lenses on cells (`Cell.fields_are_lenses`): a field that was
replaced reads as the new one, a field that is put back changes nothing, the last of two splices
counts, and splices of fields without a common bit can be exchanged. In words the fields are loaded
and stored through slices of bits (`BitSlice`), which come to the same.
-/

namespace Eqasm

-- Powers are the ones of the core library, whatever else is in scope.
attribute [local instance (2000)] instPowNat

/-! ## Bits -/

section

variable {x n start stop : Nat}

theorem testBit_div_mod (x start stop i : Nat) :
    (x / 2 ^ start % 2 ^ (stop - start)).testBit i =
      (decide (i < stop - start) && x.testBit (start + i)) := by
  rw [Nat.testBit_mod_two_pow, Nat.testBit_div_two_pow, Nat.add_comm i]

/-- The bits below a field, the new field and the bits above. -/
theorem testBit_replaced (h : start < stop) (i : Nat) :
    (x % 2 ^ start + 2 ^ start * (n % 2 ^ (stop - start)) + 2 ^ stop * (x / 2 ^ stop)).testBit i =
      if start ≤ i ∧ i < stop then n.testBit (i - start) else x.testBit i := by
  have hstop : 2 ^ start * 2 ^ (stop - start) = 2 ^ stop := by
    rw [← Nat.pow_add, Nat.add_sub_cancel' h.le]
  have hmod : x % 2 ^ start < 2 ^ start := Nat.mod_lt x (Nat.two_pow_pos start)
  have hlow := add_mul_lt_mul hmod (Nat.mod_lt n (Nat.two_pow_pos (stop - start)))
  rw [hstop] at hlow
  rw [Nat.add_comm, Nat.testBit_two_pow_mul_add _ hlow, Nat.add_comm (x % _),
    Nat.testBit_two_pow_mul_add _ hmod, Nat.testBit_mod_two_pow, Nat.testBit_mod_two_pow,
    Nat.testBit_div_two_pow]
  by_cases hi : i < stop
  · by_cases hstart : i < start
    · rw [if_pos hi, if_pos hstart, if_neg (by omega), decide_eq_true hstart, Bool.true_and]
    · rw [if_pos hi, if_neg hstart, if_pos (by omega), decide_eq_true (by omega), Bool.true_and]
  · rw [if_neg hi, if_neg (by omega), Nat.sub_add_cancel (Nat.not_lt.1 hi)]

end

namespace Cell

variable {c d d' : Cell} {start stop start' stop' n n' : Nat}

/-! ## Reading and replacing -/

theorem field_eq_ok : c.field start stop = .ok n ↔
    (start < stop ∧ stop ≤ c.width) ∧ n = c.bits / 2 ^ start % 2 ^ (stop - start) := by
  rw [field]
  split
  · next h => simp [h, eq_comm]
  · next h => simp [h]

/-- **A splice replaces the bits of its field and no others.** -/
theorem splice_eq_ok : c.splice start stop n = .ok d ↔
    (start < stop ∧ stop ≤ c.width) ∧ d.width = c.width ∧ ∀ i, d.bits.testBit i =
      if start ≤ i ∧ i < stop then n.testBit (i - start) else c.bits.testBit i := by
  by_cases h : start < stop ∧ stop ≤ c.width
  · obtain ⟨s, hs, hwidth, hbits⟩ := exists_splice h n
    have htest (i : Nat) : s.bits.testBit i =
        if start ≤ i ∧ i < stop then n.testBit (i - start) else c.bits.testBit i := by
      rw [hbits, testBit_replaced h.1]
    rw [hs, and_iff_right h]
    constructor
    · intro e
      cases e
      exact ⟨hwidth, htest⟩
    · rintro ⟨hwidth', htest'⟩
      refine congrArg Except.ok (eq_of_bits_eq (hwidth.trans hwidth'.symm) ?_)
      exact Nat.eq_of_testBit_eq fun i => (htest i).trans (htest' i).symm
  · rw [splice, if_neg h]
    simp [h]

theorem exists_field_iff :
    (∃ n, c.field start stop = .ok n) ↔ start < stop ∧ stop ≤ c.width :=
  ⟨fun ⟨_, h⟩ => (field_eq_ok.1 h).1, fun h => ⟨_, field_eq_ok.2 ⟨h, rfl⟩⟩⟩

theorem exists_splice_iff :
    (∃ d, c.splice start stop n = .ok d) ↔ start < stop ∧ stop ≤ c.width := by
  refine ⟨fun ⟨_, h⟩ => (splice_eq_ok.1 h).1, fun h => ?_⟩
  obtain ⟨d, hd, -⟩ := exists_splice h n
  exact ⟨d, hd⟩

/-! ## Lenses -/

/-- A field that was replaced reads as the low bits of the new one. -/
theorem field_of_splice (h : c.splice start stop n = .ok d) :
    d.field start stop = .ok (n % 2 ^ (stop - start)) := by
  obtain ⟨hrange, hwidth, hbits⟩ := splice_eq_ok.1 h
  refine field_eq_ok.2 ⟨hwidth ▸ hrange, Nat.eq_of_testBit_eq fun i => ?_⟩
  rw [testBit_div_mod, Nat.testBit_mod_two_pow, hbits]
  by_cases hi : i < stop - start
  · rw [if_pos (by omega), Nat.add_sub_cancel_left]
  · rw [decide_eq_false hi, Bool.false_and, Bool.false_and]

/-- To put back what was read changes nothing. -/
theorem splice_of_field (h : c.field start stop = .ok n) : c.splice start stop n = .ok c := by
  obtain ⟨hrange, rfl⟩ := field_eq_ok.1 h
  refine splice_eq_ok.2 ⟨hrange, rfl, fun i => ?_⟩
  split
  · rw [testBit_div_mod, decide_eq_true (by omega), Bool.true_and, Nat.add_sub_cancel' (by omega)]
  · rfl

/-- The last of two splices of a field counts. -/
theorem splice_of_splice (h : c.splice start stop n = .ok d) (n' : Nat) :
    d.splice start stop n' = c.splice start stop n' := by
  obtain ⟨hrange, hwidth, hbits⟩ := splice_eq_ok.1 h
  obtain ⟨e, he, -⟩ := exists_splice hrange n'
  obtain ⟨-, hwidth', hbits'⟩ := splice_eq_ok.1 he
  rw [he]
  refine splice_eq_ok.2 ⟨hwidth ▸ hrange, hwidth'.trans hwidth.symm, fun i => ?_⟩
  rw [hbits', hbits]
  split <;> rfl

/-- Splices of fields without a common bit can be exchanged. -/
theorem exists_splice_splice (h : c.splice start stop n = .ok d)
    (h' : c.splice start' stop' n' = .ok d')
    (hdisjoint : ∀ i, start ≤ i ∧ i < stop → ¬ (start' ≤ i ∧ i < stop')) :
    ∃ e, d.splice start' stop' n' = .ok e ∧ d'.splice start stop n = .ok e := by
  obtain ⟨hrange, hwidth, hbits⟩ := splice_eq_ok.1 h
  obtain ⟨hrange', hwidth', hbits'⟩ := splice_eq_ok.1 h'
  obtain ⟨e, he, -⟩ := exists_splice (hwidth ▸ hrange') n'
  obtain ⟨-, hwidthe, hbitse⟩ := splice_eq_ok.1 he
  refine ⟨e, he, splice_eq_ok.2 ⟨hwidth' ▸ hrange, hwidthe.trans (hwidth.trans hwidth'.symm), ?_⟩⟩
  intro i
  rw [hbitse, hbits, hbits']
  split
  · next hi => rw [if_neg fun hi' => hdisjoint i hi' hi]
  · rfl

end Cell

/-! ## Slices of words -/

/-- Access to the bits of a word from `start` to below `stop`. -/
structure BitSlice where
  load : BitVec 64 → Nat → Nat → BitVec 64
  store : BitVec 64 → Nat → Nat → BitVec 64 → BitVec 64

/-- A load gives the bits of the slice, the least significant one first. A store puts as many low
bits of a word there and leaves the bits outside alone. -/
structure BitSlice.Lawful (s : BitSlice) : Prop where
  getLsbD_load : ∀ x start stop i, start < stop → stop ≤ 64 →
    (s.load x start stop).getLsbD i = (decide (i < stop - start) && x.getLsbD (start + i))
  getLsbD_store : ∀ x start stop n i, start < stop → stop ≤ 64 → i < 64 →
    (s.store x start stop n).getLsbD i =
      if start ≤ i ∧ i < stop then n.getLsbD (i - start) else x.getLsbD i

namespace BitSlice

/-- The mask of as many low bits as a slice has. -/
def mask (start stop : Nat) : BitVec 64 :=
  BitVec.allOnes 64 >>> (64 - (stop - start))

/-- Slices by shifts and masks. -/
def shifted : BitSlice where
  load x start stop := x >>> start &&& mask start stop
  store x start stop n :=
    x &&& ~~~(mask start stop <<< start) ||| n <<< start &&& mask start stop <<< start

theorem getLsbD_mask {start stop : Nat} (h : stop ≤ 64) (i : Nat) :
    (mask start stop).getLsbD i = decide (i < stop - start) := by
  rw [mask, BitVec.getLsbD_ushiftRight, BitVec.getLsbD_allOnes]
  exact decide_eq_decide.2 (by omega)

theorem lawful_shifted : shifted.Lawful where
  getLsbD_load x start stop i _ hle := by
    rw [shifted, BitVec.getLsbD_and, BitVec.getLsbD_ushiftRight, getLsbD_mask hle, Bool.and_comm]
  getLsbD_store x start stop n i _ hle hi := by
    simp only [shifted, BitVec.getLsbD_or, BitVec.getLsbD_and, BitVec.getLsbD_not,
      BitVec.getLsbD_shiftLeft, getLsbD_mask hle]
    by_cases hlt : i < start
    · simp [hi, hlt, Nat.not_le.2 hlt]
    · have hmask : i - start < stop - start ↔ i < stop := by omega
      by_cases hstop : i < stop
      · simp [hi, hlt, hstop, hmask, Nat.not_lt.1 hlt]
      · simp [hi, hlt, hstop, hmask]

end BitSlice

namespace Cell

/-- A field loaded through a slice of the word that holds a cell. -/
def fieldThrough (s : BitSlice) (c : Cell) (start stop : Nat) : Except Fault (BitVec 64) :=
  if start < stop ∧ stop ≤ c.width then .ok (s.load c.toBitVec start stop)
  else .error (.fieldOutOfRange start stop c.width)

/-- A field stored through a slice of the word that holds a cell. -/
def spliceThrough (s : BitSlice) (c : Cell) (start stop : Nat) (n : BitVec 64) :
    Option (Except Fault (BitVec 64)) :=
  if start < stop ∧ stop ≤ c.width then do
    return .ok (s.store c.toBitVec start stop n &&& (← Checked.mask c.width))
  else some (.error (.fieldOutOfRange start stop c.width))

section

variable {s : BitSlice} (hs : s.Lawful) (c : Cell) (start stop : Nat)
include hs

theorem fieldThrough_eq :
    c.fieldThrough s start stop = (c.field start stop).map (BitVec.ofNat 64) := by
  rw [fieldThrough, field]
  split
  · next h =>
    refine congrArg Except.ok (BitVec.eq_of_getLsbD_eq fun i hi => ?_)
    rw [hs.getLsbD_load _ _ _ _ h.1 (Nat.le_trans h.2 c.width_le), BitVec.getLsbD_ofNat,
      testBit_div_mod, decide_eq_true hi, Bool.true_and, ← BitVec.testBit_toNat, toNat_toBitVec]
  · rfl

theorem spliceThrough_eq (n : BitVec 64) :
    c.spliceThrough s start stop n = some ((c.splice start stop n.toNat).map toBitVec) := by
  by_cases h : start < stop ∧ stop ≤ c.width
  · obtain ⟨d, hd, -⟩ := exists_splice h n.toNat
    obtain ⟨-, hwidth, hbits⟩ := splice_eq_ok.1 hd
    obtain ⟨m, hmask, hm⟩ := Checked.exists_mask c.width_le
    have hword : s.store c.toBitVec start stop n &&& m = d.toBitVec := by
      refine BitVec.eq_of_getLsbD_eq fun i hi => ?_
      rw [BitVec.getLsbD_and, hs.getLsbD_store _ _ _ _ _ h.1 (Nat.le_trans h.2 c.width_le) hi]
      simp only [← BitVec.testBit_toNat, toNat_toBitVec, hm, hbits, Nat.testBit_two_pow_sub_one]
      by_cases hlt : i < c.width
      · rw [decide_eq_true hlt, Bool.and_true]
      · -- neither the field nor the cell has a bit there
        rw [decide_eq_false hlt, Bool.and_false, if_neg (by omega),
          testBit_of_lt c.bits_lt (Nat.not_lt.1 hlt)]
    rw [spliceThrough, if_pos h, hmask, hd]
    exact congrArg (fun x => some (Except.ok x)) hword
  · rw [spliceThrough, splice, if_neg h, if_neg h]
    rfl

end

/-- **Fields are lenses on cells.** A range of bits can be read and replaced exactly if it is not
empty and inside of the cell. It reads as the quotient by the bits below it, modulo the power of two
for its length, and to put it back changes nothing. What replaces it reads as its low bits, the bits
outside stay, a second splice overrides the first, and splices of ranges without a common bit can
be exchanged. Words that are loaded and stored through slices of bits come to the same. -/
theorem fields_are_lenses (c : Cell) (start stop : Nat) :
    ((∃ n, c.field start stop = .ok n) ↔ start < stop ∧ stop ≤ c.width) ∧
    (∀ n, (∃ d, c.splice start stop n = .ok d) ↔ start < stop ∧ stop ≤ c.width) ∧
    (∀ n, c.field start stop = .ok n →
      n = c.bits / 2 ^ start % 2 ^ (stop - start) ∧ c.splice start stop n = .ok c) ∧
    (∀ n d, c.splice start stop n = .ok d →
      d.width = c.width ∧ d.field start stop = .ok (n % 2 ^ (stop - start)) ∧
      (∀ i, ¬ (start ≤ i ∧ i < stop) → d.bits.testBit i = c.bits.testBit i) ∧
      (∀ n', d.splice start stop n' = c.splice start stop n') ∧
      ∀ start' stop' n' d', c.splice start' stop' n' = .ok d' →
        (∀ i, start ≤ i ∧ i < stop → ¬ (start' ≤ i ∧ i < stop')) →
        ∃ e, d.splice start' stop' n' = .ok e ∧ d'.splice start stop n = .ok e) ∧
    ∀ s : BitSlice, s.Lawful →
      c.fieldThrough s start stop = (c.field start stop).map (BitVec.ofNat 64) ∧
      ∀ n : BitVec 64,
        c.spliceThrough s start stop n = some ((c.splice start stop n.toNat).map toBitVec) := by
  refine ⟨exists_field_iff, fun n => exists_splice_iff, fun n hn => ?_, fun n d hd => ?_,
    fun s hs => ⟨fieldThrough_eq hs c start stop, spliceThrough_eq hs c start stop⟩⟩
  · exact ⟨(field_eq_ok.1 hn).2, splice_of_field hn⟩
  · obtain ⟨-, hwidth, hbits⟩ := splice_eq_ok.1 hd
    refine ⟨hwidth, field_of_splice hd, fun i hi => ?_, splice_of_splice hd,
      fun start' stop' n' d' hd' => exists_splice_splice hd hd'⟩
    rw [hbits, if_neg hi]

/-- The upper bits of a word are replaced by a number that is too long, the lower ones by 1. -/
theorem fields_are_lenses_of_word :
    ∃ d d' e : Cell, (word 0x15577).splice 17 32 0xF7F88 = .ok d ∧ d.field 17 32 = .ok 0x7F88 ∧
      d.splice 17 32 0 = (word 0x15577).splice 17 32 0 ∧
      (word 0x15577).splice 0 17 1 = .ok d' ∧ d.splice 0 17 1 = .ok e ∧
      d'.splice 17 32 0xF7F88 = .ok e ∧
      (word 0x15577).spliceThrough .shifted 17 32 0xF7F88 = some (.ok d.toBitVec) := by
  obtain ⟨-, hsplice, -, hlens, hslice⟩ := fields_are_lenses (word 0x15577) 17 32
  obtain ⟨d, hd⟩ := (hsplice 0xF7F88).2 (by decide)
  obtain ⟨-, hfield, -, hlast, hcomm⟩ := hlens _ d hd
  obtain ⟨d', hd', -⟩ := @exists_splice (word 0x15577) 0 17 (by decide) 1
  obtain ⟨e, he, he'⟩ := hcomm 0 17 1 d' hd' fun i hi hi' => by omega
  obtain ⟨-, hthrough⟩ := hslice .shifted BitSlice.lawful_shifted
  refine ⟨d, d', e, hd, hfield, hlast 0, hd', he, he', (hthrough 0xF7F88).trans ?_⟩
  exact congrArg (fun r => some (Except.map toBitVec r)) hd

end Cell

end Eqasm
