import Eqasm.Proofs.Bank.Sound
import Eqasm.Proofs.Cell.Views
import Eqasm.Proofs.Machine.History

/-!
# Single instructions

What one step makes of a machine that stands in front of a given instruction and has the registers
that it names (`Machine.step_of_compute`).
-/

namespace Eqasm

-- Powers are the ones of the core library, whatever else is in scope.
attribute [local instance (2000)] instPowNat

namespace Machine

variable {β : Type} [Backend β] {m : Machine β} {labels : List String}

/-- An operation that goes on with the next instruction makes of the datapath what it computes. -/
theorem step_of_compute {i : Instruction} {s : Datapath β}
    (hh : m.halted = false) (hi : m.program[m.pc]? = some i)
    (ho : ∀ pi ops, i.operation ≠ .bundle pi ops) (hs : m.data.compute i.operation = .ok s)
    (hflow : i.operation.flow m.data.flags = .next) :
    m.step = ({ m with data := s, cycle := m.cycle + 1, pc := m.pc + 1 }, none) := by
  have he : m.data.execute i.operation = (s, .ok .next) := by
    rw [Datapath.execute_eq ho, hs, hflow]
  exact (Steps.next hh hi he).step_eq

/-- A comparison sets the flags. -/
theorem step_cmp {rs rt : Nat} {x y : Cell}
    (hh : m.halted = false) (hi : m.program[m.pc]? = some ⟨labels, .cmp rs rt⟩)
    (hx : m.data.general.read rs = .ok x) (hy : m.data.general.read rt = .ok y) :
    m.step = ({ m with
      data := { m.data with flags := m.data.flags.compare x y }
      cycle := m.cycle + 1
      pc := m.pc + 1 }, none) := by
  refine step_of_compute hh hi (by simp) ?_ rfl
  rw [Datapath.compute, hx, hy]
  rfl

/-- A constant is put into a register. -/
theorem step_ldi {rd count width : Nat} {imm : Int32}
    (hh : m.halted = false) (hi : m.program[m.pc]? = some ⟨labels, .ldi rd imm⟩)
    (hgeneral : m.data.general.Sound count width) (hwidth : 32 ≤ width) (hrd : rd < count) :
    ∃ (c : Cell) (b : Bank), (c.bits : Int) = imm.toInt % (2 ^ width : Nat) ∧
      m.data.general.write rd c = .ok b ∧
      m.step = ({ m with
        data := { m.data with general := b }
        cycle := m.cycle + 1
        pc := m.pc + 1 }, none) := by
  have hmost : width ≤ 64 := hgeneral.width_eq ▸ m.data.general.blank.width_le
  have hbound : 2 ^ 31 ≤ 2 ^ (width - 1) := Nat.pow_le_pow_right (by decide) (by omega)
  have hle := Int32.le_toInt imm
  have hlt := Int32.toInt_lt imm
  obtain ⟨c, hc, hcwidth, hbits⟩ := @Cell.exists_ofSigned width (by omega) imm.toInt (by omega)
  obtain ⟨b, hb⟩ := hgeneral.exists_write hrd hcwidth
  refine ⟨c, b, hbits, hb, step_of_compute hh hi (by simp) ?_ rfl⟩
  rw [Datapath.compute, Datapath.writeSigned, hgeneral.width_eq]
  exact except_bind_eq_ok.2 ⟨c, hc, except_bind_eq_ok.2 ⟨b, hb, rfl⟩⟩

/-- The bits from 17 to below 32 of a register are replaced by a constant. -/
theorem step_ldui {rd rs count width : Nat} {imm : UInt32} {x : Cell}
    (hh : m.halted = false) (hi : m.program[m.pc]? = some ⟨labels, .ldui rd rs imm⟩)
    (hgeneral : m.data.general.Sound count width) (hwidth : 32 ≤ width) (hrd : rd < count)
    (hx : m.data.general.read rs = .ok x) :
    ∃ (c : Cell) (b : Bank), c.width = width ∧
      c.bits = x.bits % 2 ^ 17 + 2 ^ 17 * (imm.toNat % 2 ^ 15) + 2 ^ 32 * (x.bits / 2 ^ 32) ∧
      m.data.general.write rd c = .ok b ∧
      m.step = ({ m with
        data := { m.data with general := b }
        cycle := m.cycle + 1
        pc := m.pc + 1 }, none) := by
  have hxwidth := hgeneral.width_of_read hx
  obtain ⟨c, hc, hcwidth, hbits⟩ :=
    @Cell.exists_splice x 17 32 (by omega) imm.toNat
  obtain ⟨b, hb⟩ := hgeneral.exists_write hrd (hcwidth.trans hxwidth)
  refine ⟨c, b, hcwidth.trans hxwidth, hbits, hb, step_of_compute hh hi (by simp) ?_ rfl⟩
  exact except_bind_eq_ok.2 ⟨x, hx, except_bind_eq_ok.2 ⟨c, hc, except_bind_eq_ok.2 ⟨b, hb, rfl⟩⟩⟩

/-- A sum is put into a register. -/
theorem step_add {rd rs rt count width : Nat} {x y : Cell}
    (hh : m.halted = false) (hi : m.program[m.pc]? = some ⟨labels, .alu .add rd rs rt⟩)
    (hgeneral : m.data.general.Sound count width) (hrd : rd < count)
    (hx : m.data.general.read rs = .ok x) (hy : m.data.general.read rt = .ok y) :
    ∃ (c : Cell) (b : Bank), (c.bits : Int) = (x.bits + y.bits) % (2 ^ width : Nat) ∧
      m.data.general.write rd c = .ok b ∧
      m.step = ({ m with
        data := { m.data with general := b }
        cycle := m.cycle + 1
        pc := m.pc + 1 }, none) := by
  have hwidth := hgeneral.width_of_read hx
  have hadd : x.add y = .ok (x.wrap (x.bits + y.bits)) :=
    if_pos ((hgeneral.width_of_read hy).trans hwidth.symm)
  obtain ⟨b, hb⟩ := hgeneral.exists_write (c := x.wrap (x.bits + y.bits)) hrd hwidth
  refine ⟨_, b, ?_, hb, step_of_compute hh hi (by simp) ?_ rfl⟩
  · rw [Cell.bits_wrap, hwidth]
  · exact except_bind_eq_ok.2 ⟨x, hx, except_bind_eq_ok.2 ⟨y, hy, except_bind_eq_ok.2
      ⟨_, hadd, except_bind_eq_ok.2 ⟨b, hb, rfl⟩⟩⟩⟩

end Machine

end Eqasm
