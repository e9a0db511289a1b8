import Eqasm.Bank

/-!
# Sound banks

A bank of a given size and width whose cells all have this width. Making, writing and clearing keep
banks sound; an accepted write is to a register that exists, with a cell of the bank's width
(`Bank.write_eq_ok`).
-/

namespace Eqasm

-- Powers are the ones of the core library, whatever else is in scope.
attribute [local instance (2000)] instPowNat

namespace Bank

/-- The size and the width of a bank and of its cells. -/
structure Sound (b : Bank) (count width : Nat) : Prop where
  size_eq : b.size = count
  width_eq : b.width = width
  cells : ∀ c ∈ b.cells, c.width = width ∧ c.bits < 2 ^ width

theorem bits_lt_of_width {c : Cell} {width : Nat} (h : c.width = width) : c.bits < 2 ^ width :=
  h ▸ c.bits_lt

/-- Banks of all widths that cells can have can be made. -/
theorem exists_make (name : String) (count : Nat) {width : Nat} (h : 0 < width ∧ width ≤ 64) :
    ∃ b, make name count width = .ok b ∧ b.Sound count width := by
  obtain ⟨blank, hz, hblank⟩ : ∃ blank, Cell.zero width = .ok blank ∧ blank.width = width :=
    ⟨_, by rw [Cell.zero, dif_pos h], rfl⟩
  refine ⟨⟨name, blank, .replicate count blank⟩, by rw [make, hz]; rfl, ?_⟩
  refine ⟨by simp [Bank.size], hblank, fun c hc => ?_⟩
  obtain ⟨-, rfl⟩ := Array.mem_replicate.1 hc
  exact ⟨hblank, bits_lt_of_width hblank⟩

theorem write_eq_ok {b b' : Bank} {i : Nat} {c : Cell} :
    b.write i c = .ok b' ↔
      i < b.size ∧ c.width = b.width ∧ b' = { b with cells := b.cells.setIfInBounds i c } := by
  rw [write]
  by_cases hi : i < b.size
  · by_cases hc : c.width = b.width
    · simp [hi, hc, eq_comm]
    · simp [hi, hc]
  · simp [hi]

/-- A register that was written holds what was written. -/
theorem read_of_write {b b' : Bank} {i : Nat} {c : Cell} (h : b.write i c = .ok b') :
    b'.read i = .ok c := by
  obtain ⟨hi, -, rfl⟩ := write_eq_ok.1 h
  have hget : (b.cells.setIfInBounds i c)[i]? = some c :=
    Array.getElem?_setIfInBounds_self_of_lt hi
  rw [read, hget]

/-- The other registers hold what they held. -/
theorem read_of_write_of_ne {b b' : Bank} {i j : Nat} {c : Cell} (h : b.write i c = .ok b')
    (hne : i ≠ j) : b'.read j = b.read j := by
  obtain ⟨-, -, rfl⟩ := write_eq_ok.1 h
  have hget : (b.cells.setIfInBounds i c)[j]? = b.cells[j]? :=
    Array.getElem?_setIfInBounds_ne hne
  rw [read, read, hget]
  simp only [missing, size, Array.size_setIfInBounds]

/-- Of two writes to a register the last one counts. -/
theorem write_of_write {b b' : Bank} {i : Nat} {c : Cell} (h : b.write i c = .ok b') (d : Cell) :
    b'.write i d = b.write i d := by
  obtain ⟨hi, -, rfl⟩ := write_eq_ok.1 h
  have hsize : Bank.size ⟨b.name, b.blank, b.cells.setIfInBounds i c⟩ = b.size :=
    Array.size_setIfInBounds
  simp only [write, hsize, missing, Array.setIfInBounds_setIfInBounds]
  rfl

/-- Cells that are read have the width of the bank. -/
theorem Sound.width_of_read {b : Bank} {count width : Nat} (h : b.Sound count width) {i : Nat}
    {c : Cell} (hr : b.read i = .ok c) : c.width = width := by
  rw [read] at hr
  split at hr
  · rename_i d hd
    cases hr
    exact (h.cells c (Array.mem_of_getElem? hd)).1
  · cases hr

/-- Registers that exist can be read. -/
theorem Sound.exists_read {b : Bank} {count width : Nat} (h : b.Sound count width) {i : Nat}
    (hi : i < count) : ∃ c, b.read i = .ok c ∧ c.width = width := by
  have hlt : i < b.cells.size := Nat.lt_of_lt_of_eq hi h.size_eq.symm
  have hread : b.read i = .ok b.cells[i] := by
    rw [read, Array.getElem?_eq_getElem hlt]
  exact ⟨_, hread, h.width_of_read hread⟩

theorem Sound.write {b b' : Bank} {count width : Nat} (h : b.Sound count width) {i : Nat} {c : Cell}
    (hw : b.write i c = .ok b') : b'.Sound count width := by
  obtain ⟨-, hc, rfl⟩ := write_eq_ok.1 hw
  refine ⟨?_, h.width_eq, fun d hd => ?_⟩
  · rw [← h.size_eq]
    simp [Bank.size]
  · rcases Array.mem_or_eq_of_mem_setIfInBounds hd with hd | rfl
    · exact h.cells d hd
    · exact ⟨hc.trans h.width_eq, bits_lt_of_width (hc.trans h.width_eq)⟩

/-- Registers that exist can be written. -/
theorem Sound.exists_write {b : Bank} {count width : Nat} (h : b.Sound count width) {i : Nat}
    {c : Cell} (hi : i < count) (hc : c.width = width) : ∃ b', b.write i c = .ok b' :=
  ⟨_, write_eq_ok.2 ⟨Nat.lt_of_lt_of_eq hi h.size_eq.symm, hc.trans h.width_eq.symm, rfl⟩⟩

theorem Sound.clear {b : Bank} {count width : Nat} (h : b.Sound count width) :
    b.clear.Sound count width := by
  refine ⟨?_, h.width_eq, fun d hd => ?_⟩
  · rw [← h.size_eq]
    simp [Bank.size, Bank.clear]
  · obtain ⟨c, -, rfl⟩ := Array.mem_map.1 hd
    exact ⟨h.width_eq, bits_lt_of_width h.width_eq⟩

end Bank

end Eqasm
