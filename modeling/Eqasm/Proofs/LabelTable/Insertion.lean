import Eqasm.Proofs.LabelTable.Carried
import Mathlib.Data.List.InsertIdx

/-!
# Label tables of longer programs

An instruction is inserted into a program at some place. The instructions from this place on move
by one (`shift`). If the new instruction carries no label, the longer program has a table exactly
like the old one, with the places of the instructions moved (`Describes.find?_insertIdx`).
-/

namespace Eqasm

/-- The place of the instruction at `k` behind an insertion at `i`. -/
def shift (i k : Nat) : Nat :=
  if k < i then k else k + 1

theorem shift_of_lt {i k : Nat} (h : k < i) : shift i k = k := if_pos h

theorem shift_of_le {i k : Nat} (h : i ≤ k) : shift i k = k + 1 := if_neg (by omega)

/-- The place behind an instruction is that of the next one, or of the new one before it. -/
theorem shift_succ (i k : Nat) :
    shift i k + 1 = shift i (k + 1) ∨ shift i k + 1 = i ∧ k + 1 = i := by
  unfold shift
  split <;> split <;> omega

/-- No instruction moves to the place of the new one. -/
theorem shift_ne (i k : Nat) : shift i k ≠ i := by
  unfold shift
  split <;> omega

/-- Every other place is that of an instruction before the insertion. -/
theorem exists_shift_eq {i k : Nat} (h : k ≠ i) : ∃ j, shift i j = k := by
  rcases Nat.lt_or_gt_of_ne h with hlt | hgt
  · exact ⟨k, shift_of_lt hlt⟩
  · exact ⟨k - 1, by rw [shift_of_le (by omega)]; omega⟩

theorem getElem?_insertIdx_shift {α : Type} (l : List α) (i k : Nat) (x : α) :
    (l.insertIdx i x)[shift i k]? = l[k]? := by
  by_cases h : k < i
  · rw [shift_of_lt h, List.getElem?_insertIdx_of_lt h]
  · have hi : i < k + 1 := by omega
    rw [shift_of_le (by omega), List.getElem?_insertIdx_of_gt hi, Nat.add_sub_cancel]

namespace LabelTable

variable {t t' : LabelTable} {program : List Instruction} {i : Nat} {w : Instruction}

/-- An instruction without labels does not change the labels that are carried. -/
theorem perm_labels_insertIdx (hi : i ≤ program.length) (hw : w.labels = []) :
    ((program.insertIdx i w).flatMap (·.labels)).Perm (program.flatMap (·.labels)) := by
  have h := (List.perm_insertIdx w program hi).flatMap_right (·.labels)
  rwa [List.flatMap_cons, hw, List.nil_append] at h

/-- The longer program has a table too. -/
theorem Describes.exists_insertIdx (h : t.Describes program) (hi : i ≤ program.length)
    (hw : w.labels = []) : ∃ t' : LabelTable, t'.Describes (program.insertIdx i w) :=
  exists_describes ((perm_labels_insertIdx hi hw).nodup_iff.2 h.labels_nodup)

/-- **Labels name the same instructions as before**, at their new places. -/
theorem Describes.find?_insertIdx (h : t.Describes program)
    (h' : t'.Describes (program.insertIdx i w)) (hi : i ≤ program.length) (hw : w.labels = [])
    (label : String) : t'.find? label = (t.find? label).map (shift i) := by
  refine Option.ext fun k => ?_
  rw [h'.find?_eq_some, Option.map_eq_some_iff]
  constructor
  · rintro ⟨j, hj, hl⟩
    have hk : k ≠ i := by
      rintro rfl
      rw [List.getElem?_insertIdx_self, if_pos hi] at hj
      cases hj
      simp [hw] at hl
    obtain ⟨n, rfl⟩ := exists_shift_eq hk
    rw [getElem?_insertIdx_shift] at hj
    exact ⟨n, h.find?_eq_some.2 ⟨j, hj, hl⟩, rfl⟩
  · rintro ⟨n, hn, rfl⟩
    rw [getElem?_insertIdx_shift]
    exact h.find?_eq_some.1 hn

end LabelTable

end Eqasm
