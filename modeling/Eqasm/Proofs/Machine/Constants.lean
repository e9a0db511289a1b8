import Eqasm.Backend.Ideal
import Eqasm.Proofs.Machine.Instructions
import Eqasm.Proofs.Machine.Sound

/-!
# Constants of 32 bits

A constant that is too long for one instruction is put into a register by two of them. The first
loads its 17 lower bits, and the second puts its 15 upper bits in front of them
(`Machine.constant_of_halves`).
-/

namespace Eqasm.Machine

-- Powers are the ones of the core library, whatever else is in scope.
attribute [local instance (2000)] instPowNat

section

variable {β : Type} [Backend β] {m : Machine β} {labels : List String} {rd rs count : Nat}

/-- **The halves of a constant** are put together, also if both go through one register. -/
theorem steps_of_halves {labels' : List String} {width : Nat} {c : UInt32} (hh : m.halted = false)
    (hldi : m.program[m.pc]? = some ⟨labels, .ldi rs (.ofNat (c.toNat % 2 ^ 17))⟩)
    (hldui : m.program[m.pc + 1]? = some ⟨labels', .ldui rd rs (.ofNat (c.toNat / 2 ^ 17))⟩)
    (hgeneral : m.data.general.Sound count width) (hwidth : 32 ≤ width) (hrd : rd < count)
    (hrs : rs < count) :
    ∃ (m' m'' : Machine β) (x : Cell), m.step = (m', none) ∧ m'.step = (m'', none) ∧
      m''.pc = m.pc + 2 ∧ m''.data.general.read rd = .ok x ∧ x.width = width ∧
      x.bits = c.toNat := by
  have hc : c.toNat < 2 ^ 32 := c.toNat_lt
  obtain ⟨d, b, hd, hb, hfirst⟩ := step_ldi hh hldi hgeneral hwidth hrs
  obtain ⟨x, b', hxwidth, hx, hb', hsecond⟩ := step_ldui (m := { m with
      data := { m.data with general := b }, cycle := m.cycle + 1, pc := m.pc + 1 })
    hh hldui (hgeneral.write hb) hwidth hrd (Bank.read_of_write hb)
  refine ⟨_, _, x, hfirst, hsecond, rfl, Bank.read_of_write hb', hxwidth, ?_⟩
  -- the lower half is the same number in a register of any width
  have hlow : d.bits = c.toNat % 2 ^ 17 := by
    have hpow : 2 ^ 32 ≤ 2 ^ width := Nat.pow_le_pow_right (by decide) hwidth
    rw [Int32.toInt_ofNat_of_lt (by omega), ← Int.natCast_emod, Int.ofNat_inj] at hd
    rw [hd, Nat.mod_eq_of_lt (by omega)]
  have hhigh : (UInt32.ofNat (c.toNat / 2 ^ 17)).toNat = c.toNat / 2 ^ 17 :=
    UInt32.toNat_ofNat'.trans (Nat.mod_eq_of_lt (by omega))
  rw [hx, hlow, hhigh]
  omega

/-- Of the source and of the constant nothing is left but the lower 17 and 15 bits. -/
theorem step_upperHalf {imm : UInt32} (hh : m.halted = false)
    (hldui : m.program[m.pc]? = some ⟨labels, .ldui rd rs imm⟩)
    (hgeneral : m.data.general.Sound count 32) (hrd : rd < count) (hrs : rs < count) :
    ∃ (m' : Machine β) (x y : Cell), m.data.general.read rs = .ok x ∧ m.step = (m', none) ∧
      m'.pc = m.pc + 1 ∧ m'.data.general.read rd = .ok y ∧
      y.bits = imm.toNat % 2 ^ 15 * 2 ^ 17 + x.bits % 2 ^ 17 := by
  obtain ⟨x, hx, hxwidth⟩ := hgeneral.exists_read hrs
  obtain ⟨y, b, -, hy, hb, hstep⟩ := step_ldui hh hldui hgeneral (Nat.le_refl 32) hrd hx
  refine ⟨_, x, y, hx, hstep, rfl, Bank.read_of_write hb, ?_⟩
  have hxbits : x.bits < 2 ^ 32 := Bank.bits_lt_of_width hxwidth
  rw [hy]
  omega

end

/-- **Constants of 32 bits.** On a machine whose registers have 32 or more bits, a load of the lower
17 bits of a constant and a load of its upper bits leave the constant in the destination, whatever
the registers held before and also if source and destination are one register. If they have 32 bits,
the second of these instructions leaves in its destination the 15 lower bits of the number in the
instruction, and behind them the 17 lower bits of its source. -/
theorem constant_of_halves {β : Type} [Backend β] :
    (∀ (m : Machine β) labels labels' count width rd rs (c : UInt32), m.halted = false →
      m.program[m.pc]? = some ⟨labels, .ldi rs (.ofNat (c.toNat % 2 ^ 17))⟩ →
      m.program[m.pc + 1]? = some ⟨labels', .ldui rd rs (.ofNat (c.toNat / 2 ^ 17))⟩ →
      m.data.general.Sound count width → 32 ≤ width → rd < count → rs < count →
      ∃ (m' m'' : Machine β) (x : Cell), m.step = (m', none) ∧ m'.step = (m'', none) ∧
        m''.pc = m.pc + 2 ∧ m''.data.general.read rd = .ok x ∧ x.width = width ∧
        x.bits = c.toNat) ∧
    ∀ (m : Machine β) labels count rd rs (imm : UInt32), m.halted = false →
      m.program[m.pc]? = some ⟨labels, .ldui rd rs imm⟩ →
      m.data.general.Sound count 32 → rd < count → rs < count →
      ∃ (m' : Machine β) (x y : Cell), m.data.general.read rs = .ok x ∧ m.step = (m', none) ∧
        m'.pc = m.pc + 1 ∧ m'.data.general.read rd = .ok y ∧
        y.bits = imm.toNat % 2 ^ 15 * 2 ^ 17 + x.bits % 2 ^ 17 := by
  constructor
  · intro m labels labels' count width rd rs c hh hldi hldui hgeneral hwidth hrd hrs
    exact steps_of_halves hh hldi hldui hgeneral hwidth hrd hrs
  · intro m labels count rd rs imm hh hldui hgeneral hrd hrs
    exact step_upperHalf hh hldui hgeneral hrd hrs

/-- The constant goes through one register of 40 bits that held -1, and the upper half of another
constant, with more bits than fit, is put in front of a register of 32 bits that holds -1. -/
theorem constant_of_halves_of_negative :
    (∃ (m m' m'' : Machine Ideal) (x : Cell), m.halted = false ∧
      m.program.toList = [⟨[], .ldi 1 (.ofNat (0x89ABCDEF % 2 ^ 17))⟩,
        ⟨[], .ldui 1 1 (.ofNat (0x89ABCDEF / 2 ^ 17))⟩] ∧
      m.data.general.read 1 = .ok ⟨40, 2 ^ 40 - 1, by decide, by decide, by decide⟩ ∧
      m.step = (m', none) ∧ m'.step = (m'', none) ∧ m''.data.general.read 1 = .ok x ∧
      x.width = 40 ∧ x.bits = 0x89ABCDEF) ∧
    ∃ (m m' : Machine Ideal) (x : Cell), m.halted = false ∧
      m.program.toList = [⟨[], .ldui 0 1 0xFFFF8001⟩] ∧
      m.data.general.read 1 = .ok ⟨32, 2 ^ 32 - 1, by decide, by decide, by decide⟩ ∧
      m.step = (m', none) ∧ m'.data.general.read 0 = .ok x ∧ x.bits = 0x3FFFF := by
  obtain ⟨hhalves, hupper⟩ := constant_of_halves (β := Ideal)
  constructor
  · obtain ⟨m₀, hmake, hsound, -⟩ := @exists_make Ideal
      { generalCount := 2, generalWidth := 40, floatCount := 1, qubits := 1 }
      (by decide) (by decide) ⟨⟩
    have hdata := (hsound.acts (empty_of_make hmake).2
      [.upload [⟨[], .ldi 1 (.ofNat (0x89ABCDEF % 2 ^ 17))⟩,
        ⟨[], .ldui 1 1 (.ofNat (0x89ABCDEF / 2 ^ 17))⟩], .write (.signed 1 (-1))]).data
    generalize hm : m₀.acts _ = m at hdata
    have hstart : m.halted = false ∧ m.pc = 0 ∧
        m.program.toList = [⟨[], .ldi 1 (.ofNat (0x89ABCDEF % 2 ^ 17))⟩,
          ⟨[], .ldui 1 1 (.ofNat (0x89ABCDEF / 2 ^ 17))⟩] ∧
        m.data.general.read 1 = .ok ⟨40, 2 ^ 40 - 1, by decide, by decide, by decide⟩ := by
      cases hmake
      cases hm
      decide +kernel
    obtain ⟨hhalted, hpc, hprogram, hread⟩ := hstart
    have hfirst : m.program[m.pc]? = some ⟨[], .ldi 1 (.ofNat (0x89ABCDEF % 2 ^ 17))⟩ := by
      rw [← Array.getElem?_toList, hprogram, hpc]
      rfl
    have hsecond : m.program[m.pc + 1]? = some ⟨[], .ldui 1 1 (.ofNat (0x89ABCDEF / 2 ^ 17))⟩ := by
      rw [← Array.getElem?_toList, hprogram, hpc]
      rfl
    obtain ⟨m', m'', x, hstep, hstep', -, hx, hwidth, hbits⟩ :=
      hhalves m [] [] 2 40 1 1 0x89ABCDEF hhalted hfirst hsecond hdata.general (by decide)
        (by decide) (by decide)
    exact ⟨m, m', m'', x, hhalted, hprogram, hread, hstep, hstep', hx, hwidth, hbits⟩
  · obtain ⟨m₀, hmake, hsound, -⟩ := @exists_make Ideal
      { generalCount := 2, floatCount := 1, qubits := 1 } (by decide) (by decide) ⟨⟩
    have hdata := (hsound.acts (empty_of_make hmake).2
      [.upload [⟨[], .ldui 0 1 0xFFFF8001⟩], .write (.signed 1 (-1))]).data
    generalize hm : m₀.acts _ = m at hdata
    have hstart : m.halted = false ∧ m.pc = 0 ∧
        m.program.toList = [⟨[], .ldui 0 1 0xFFFF8001⟩] ∧
        m.data.general.read 1 = .ok ⟨32, 2 ^ 32 - 1, by decide, by decide, by decide⟩ := by
      cases hmake
      cases hm
      decide +kernel
    obtain ⟨hhalted, hpc, hprogram, hread⟩ := hstart
    have hat : m.program[m.pc]? = some ⟨[], .ldui 0 1 0xFFFF8001⟩ := by
      rw [← Array.getElem?_toList, hprogram, hpc]
      rfl
    obtain ⟨m', x, y, hx, hstep, -, hy, hbits⟩ :=
      hupper m [] 2 0 1 0xFFFF8001 hhalted hat hdata.general (by decide) (by decide)
    cases hread.symm.trans hx
    exact ⟨m, m', y, hhalted, hprogram, hread, hstep, hy, hbits⟩

end Eqasm.Machine
