import Eqasm.Proofs.Cell.Arithmetic

/-!
# Division of cells

Signed division rounds toward zero. All quotients and remainders fit, except that the least number
by -1 is the least number again, without a remainder (`Cell.Wraps`). Dividend, divisor, quotient and
remainder always belong together modulo `2 ^ width`, and the dividend is found again by cell
arithmetic (`Cell.division_with_remainder`).
-/

namespace Eqasm

-- Powers are the ones of the core library, whatever else is in scope.
attribute [local instance (2000)] instPowNat

namespace Cell

variable {a b : Cell}

/-- The quotient does not fit: the least number is divided by -1. -/
def Wraps (a b : Cell) : Prop :=
  a.signed = -((2 ^ (a.width - 1) : Nat) : Int) ∧ b.signed = -1

instance (a b : Cell) : Decidable (Wraps a b) :=
  inferInstanceAs (Decidable (_ ∧ _))

theorem signed_eq_zero_iff (c : Cell) : c.signed = 0 ↔ c.bits = 0 := by
  rw [signed_eq, twosComplement]
  have hlt := c.bits_lt
  have hpos := Nat.two_pow_pos (c.width - 1)
  split <;> omega

theorem represents_signed (c : Cell) : c.Represents c.width c.signed :=
  c.represents_bits.congr c.bits_modEq

/-- Divisions by zero are refused, and no others of cells of one width. -/
theorem divided_eq_error_iff {result : Cell} {cause : Fault} (h : b.width = a.width) :
    ofSameWidth a b (if b.signed = 0 then .error .divideByZero else .ok result) = .error cause ↔
      b.bits = 0 ∧ cause = .divideByZero := by
  rw [ofSameWidth, if_pos h, ← signed_eq_zero_iff]
  by_cases hzero : b.signed = 0
  · simp [hzero, eq_comm]
  · simp [hzero]

theorem divided_eq_ok {result : Cell} (h : b.width = a.width) (hb : b.signed ≠ 0) :
    ofSameWidth a b (if b.signed = 0 then .error .divideByZero else .ok result) = .ok result := by
  rw [ofSameWidth, if_pos h, if_neg hb]

/-! ## Ranges -/

/-- All quotients but one are in range. -/
theorem tdiv_inRange (hb : b.signed ≠ 0) (hwraps : ¬ Wraps a b) :
    InRange a.width (a.signed.tdiv b.signed) := by
  obtain ⟨hle, hlt⟩ := a.signed_inRange
  have hpos := Nat.two_pow_pos (a.width - 1)
  have habs := Int.natAbs_tdiv_le_natAbs a.signed b.signed
  by_cases hleast : a.signed = -((2 ^ (a.width - 1) : Nat) : Int)
  · by_cases hone : b.signed = 1
    · rw [hone, Int.tdiv_one]
      exact ⟨hle, hlt⟩
    · -- the quotient is at most half of the dividend
      have htwo : 2 ≤ b.signed.natAbs := by
        have hminus : b.signed ≠ -1 := fun e => hwraps ⟨hleast, e⟩
        omega
      have hhalf : (a.signed.tdiv b.signed).natAbs ≤ a.signed.natAbs / 2 := by
        rw [Int.natAbs_tdiv]
        exact Nat.div_le_div_left htwo (by decide)
      constructor <;> omega
  · constructor <;> omega

/-- Remainders are closer to zero than the divisor. -/
theorem natAbs_tmod_lt {y : Int} (hy : y ≠ 0) (x : Int) : (x.tmod y).natAbs < y.natAbs := by
  rw [Int.natAbs_tmod]
  exact Nat.mod_lt _ (Int.natAbs_pos.2 hy)

theorem tmod_inRange (h : b.width = a.width) (hb : b.signed ≠ 0) :
    InRange a.width (a.signed.tmod b.signed) := by
  obtain ⟨hle, hlt⟩ := b.signed_inRange
  rw [h] at hle hlt
  have habs := natAbs_tmod_lt hb a.signed
  constructor <;> omega

/-! ## Quotient and remainder -/

/-- What a division gives. -/
theorem exists_div (h : b.width = a.width) (hb : b.signed ≠ 0) :
    ∃ q, a.div b = .ok q ∧ q.Represents a.width (a.signed.tdiv b.signed) ∧
      q.signed = if Wraps a b then a.signed else a.signed.tdiv b.signed := by
  have hq := a.represents_wrap (a.signed.tdiv b.signed)
  refine ⟨_, divided_eq_ok h hb, hq, ?_⟩
  by_cases hwraps : Wraps a b
  · -- the quotient is greater than the least number by `2 ^ width`
    obtain ⟨hleast, hminus⟩ := id hwraps
    have hwidth := a.two_pow_width
    rw [if_pos hwraps]
    refine (hq.congr ?_).signed_eq a.signed_inRange
    rw [hminus, Int.tdiv_neg, Int.tdiv_one, hleast]
    exact Int.modEq_iff_dvd.2 ⟨-1, by omega⟩
  · rw [if_neg hwraps]
    exact hq.signed_eq (tdiv_inRange hb hwraps)

/-- What is left by a division. -/
theorem exists_rem (h : b.width = a.width) (hb : b.signed ≠ 0) :
    ∃ r, a.rem b = .ok r ∧ r.width = a.width ∧ r.signed = a.signed.tmod b.signed :=
  ⟨_, divided_eq_ok h hb, rfl, (a.represents_wrap _).signed_eq (tmod_inRange h hb)⟩

/-- What belongs together modulo `2 ^ width` gives the dividend by cell arithmetic. -/
theorem exists_dividend {q r : Cell} (h : b.width = a.width) (hq : q.width = a.width)
    (hr : r.width = a.width)
    (hcongr : a.signed ≡ q.signed * b.signed + r.signed [ZMOD (2 ^ a.width : Nat)]) :
    ∃ p, q.mul b = .ok p ∧ p.add r = .ok a := by
  obtain ⟨p, hmul, hp⟩ := exists_mul (h.trans hq.symm)
  have hproduct := hq ▸ hp.signed
  obtain ⟨s, hadd, hs⟩ := exists_add (hr.trans hproduct.width_eq.symm)
  have hsum := hproduct.width_eq ▸ hs.signed
  have hfound : s = a :=
    (hsum.congr (hproduct.signed_modEq.add_right r.signed)).unique
      (a.represents_signed.congr hcongr)
  exact ⟨p, hmul, hfound ▸ hadd⟩

/-- **Division rounds toward zero.** A division of cells of one width fails exactly if the divisor
is zero. The quotient is that of the signed views, rounded toward zero, but the least number by -1
is the least number again. The remainder is closer to zero than the divisor, and it is zero or has
the sign of the dividend. The dividend is the product of quotient and divisor and the remainder,
modulo `2 ^ width` in all cases and as a number if the quotient fits, and the operations on cells
find it again. -/
theorem division_with_remainder (h : b.width = a.width) :
    (∀ cause, a.div b = .error cause ↔ b.bits = 0 ∧ cause = .divideByZero) ∧
    (∀ cause, a.rem b = .error cause ↔ b.bits = 0 ∧ cause = .divideByZero) ∧
    (b.bits ≠ 0 → ∃ q r p : Cell, a.div b = .ok q ∧ a.rem b = .ok r ∧
      q.width = a.width ∧ r.width = a.width ∧
      (q.signed = if Wraps a b then -((2 ^ (a.width - 1) : Nat) : Int)
        else a.signed.tdiv b.signed) ∧
      r.signed.natAbs < b.signed.natAbs ∧ (r.signed = 0 ∨ r.signed.sign = a.signed.sign) ∧
      (Wraps a b → r.signed = 0) ∧
      a.signed ≡ q.signed * b.signed + r.signed [ZMOD (2 ^ a.width : Nat)] ∧
      (¬ Wraps a b → a.signed = q.signed * b.signed + r.signed) ∧
      q.mul b = .ok p ∧ p.add r = .ok a) := by
  refine ⟨fun cause => divided_eq_error_iff h, fun cause => divided_eq_error_iff h, fun hbits => ?_⟩
  have hb : b.signed ≠ 0 := fun e => hbits (b.signed_eq_zero_iff.1 e)
  obtain ⟨q, hdiv, hq, hquotient⟩ := exists_div h hb
  obtain ⟨r, hrem, hrwidth, hremainder⟩ := exists_rem h hb
  have hexact : a.signed = a.signed.tdiv b.signed * b.signed + r.signed := by
    rw [hremainder, Int.mul_comm, Int.mul_tdiv_add_tmod]
  have hcongr : a.signed ≡ q.signed * b.signed + r.signed [ZMOD (2 ^ a.width : Nat)] := by
    have hproduct := (hq.signed_modEq.symm.mul_right b.signed).add_right r.signed
    rwa [← hexact] at hproduct
  obtain ⟨p, hmul, hadd⟩ := exists_dividend h hq.width_eq hrwidth hcongr
  refine ⟨q, r, p, hdiv, hrem, hq.width_eq, hrwidth, ?_,
    hremainder ▸ natAbs_tmod_lt hb a.signed, ?_, fun hwraps => ?_, hcongr, fun hwraps => ?_, hmul,
    hadd⟩
  · rw [hquotient]
    split
    · exact (‹Wraps a b›).1
    · rfl
  · have hsign := Int.sign_tmod a.signed b.signed
    rw [hremainder]
    split at hsign
    · exact .inl (Int.sign_eq_zero_iff_zero.1 hsign)
    · exact .inr hsign
  · rw [hremainder, hwraps.2, Int.tmod_neg, Int.tmod_one]
  · rw [hquotient, if_neg hwraps]
    exact hexact

/-- In cells of one bit, -1 by -1 is -1, and in cells of four bits, -7 by 2 leaves -1. -/
theorem division_with_remainder_of_bit :
    (∃ a q r : Cell, a.width = 1 ∧ a.bits = 1 ∧ a.div a = .ok q ∧ a.rem a = .ok r ∧
      q.signed = -1 ∧ r.signed = 0) ∧
    ∃ a b q r : Cell, a.width = 4 ∧ a.signed = -7 ∧ b.width = 4 ∧ b.signed = 2 ∧
      a.div b = .ok q ∧ a.rem b = .ok r ∧ q.signed = -3 ∧ r.signed = -1 := by
  constructor
  · let a : Cell := ⟨1, 1, by decide, by decide, by decide⟩
    obtain ⟨-, -, hdivided⟩ := division_with_remainder (a := a) (b := a) rfl
    obtain ⟨q, r, -, hdiv, hrem, -, -, hq, -, -, hr, -⟩ := hdivided (by decide)
    exact ⟨a, q, r, rfl, rfl, hdiv, hrem, hq.trans (by decide), hr (by decide)⟩
  · let a : Cell := ⟨4, 9, by decide, by decide, by decide⟩
    let b : Cell := ⟨4, 2, by decide, by decide, by decide⟩
    have ha : a.signed = -7 := by decide
    have hb : b.signed = 2 := by decide
    obtain ⟨-, -, hdivided⟩ := division_with_remainder (a := a) (b := b) rfl
    obtain ⟨q, r, -, hdiv, hrem, -, -, hq, -, -, -, -, hexact, -⟩ := hdivided (by decide)
    have hquotient : q.signed = -3 := hq.trans (by decide)
    have hremainder := hexact (by decide)
    rw [ha, hb, hquotient] at hremainder
    exact ⟨a, b, q, r, rfl, ha, rfl, hb, hdiv, hrem, hquotient, by omega⟩

end Cell

end Eqasm
