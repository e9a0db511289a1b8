import Eqasm.LabelTable
import Mathlib.Data.List.Nodup

/-!
# Label tables and programs

A table describes a program if it holds exactly the labels that the instructions carry, each with
the index of its instruction, and no label is carried twice (`LabelTable.Describes`). Then looking
a label up gives the one instruction that carries it (`Describes.find?_eq_some`). Whole programs
(`ofProgram?_eq_ok`) and single instructions (`addAll?_eq_ok`) are entered exactly if no label
would be carried twice.
-/

namespace Eqasm

/-- The labels of instructions with the indices of the instructions, which are counted from
`index` on. -/
def carried (index : Nat) : List Instruction → List (String × Nat)
  | [] => []
  | i :: rest => i.labels.map (·, index) ++ carried (index + 1) rest

theorem carried_append (index : Nat) (p q : List Instruction) :
    carried index (p ++ q) = carried index p ++ carried (index + p.length) q := by
  induction p generalizing index with
  | nil => rfl
  | cons i p ih =>
    have hlen : index + 1 + p.length = index + (i :: p).length := by
      simp only [List.length_cons]
      omega
    rw [List.cons_append, carried, carried, ih, hlen, List.append_assoc]

theorem map_fst_carried (index : Nat) (p : List Instruction) :
    (carried index p).map Prod.fst = p.flatMap (·.labels) := by
  induction p generalizing index with
  | nil => rfl
  | cons i p ih => simp [carried, ih, Function.comp_def]

theorem mem_carried {index : Nat} {p : List Instruction} {label : String} {k : Nat} :
    (label, k) ∈ carried index p ↔ ∃ n i, k = index + n ∧ p[n]? = some i ∧ label ∈ i.labels := by
  induction p generalizing index with
  | nil => simp [carried]
  | cons i p ih =>
    rw [carried, List.mem_append, ih]
    constructor
    · rintro (h | ⟨n, j, rfl, hj, hl⟩)
      · obtain ⟨l, hl, h⟩ := List.mem_map.1 h
        cases h
        exact ⟨0, i, rfl, rfl, hl⟩
      · exact ⟨n + 1, j, by omega, hj, hl⟩
    · rintro ⟨n, j, rfl, hj, hl⟩
      cases n with
      | zero =>
        obtain rfl : i = j := by simpa using hj
        exact .inl (List.mem_map.2 ⟨label, hl, rfl⟩)
      | succ n => exact .inr ⟨n, j, by omega, by simpa using hj, hl⟩

namespace LabelTable

/-! ## Descriptions -/

/-- The table holds the labels of a program, with the indices of their instructions. -/
structure Describes (t : LabelTable) (program : List Instruction) : Prop where
  entries : t.entries = (carried 0 program).reverse
  labels_nodup : (program.flatMap (·.labels)).Nodup

theorem describes_empty : empty.Describes [] :=
  ⟨rfl, by simp⟩

theorem exists_describes {program : List Instruction} (h : (program.flatMap (·.labels)).Nodup) :
    ∃ t : LabelTable, t.Describes program :=
  ⟨⟨(carried 0 program).reverse⟩, rfl, h⟩

theorem contains_iff {t : LabelTable} {label : String} :
    t.contains label ↔ label ∈ t.entries.map Prod.fst := by
  rw [contains, find?, List.lookup_isSome_iff, List.mem_map]
  constructor
  · rintro ⟨e, he, h⟩
    exact ⟨e, he, (eq_of_beq h).symm⟩
  · rintro ⟨e, he, rfl⟩
    exact ⟨e, he, by simp⟩

theorem lookup_eq_some_iff_mem {entries : List (String × Nat)} (h : (entries.map Prod.fst).Nodup)
    {label : String} {k : Nat} : entries.lookup label = some k ↔ (label, k) ∈ entries := by
  induction entries with
  | nil => simp
  | cons e entries ih =>
    obtain ⟨l, n⟩ := e
    obtain ⟨hl, hrest⟩ := List.nodup_cons.1 h
    rw [List.lookup_cons, List.mem_cons, Prod.mk.injEq]
    by_cases heq : label = l
    · subst heq
      have hmem : (label, k) ∉ entries := fun hm => hl (List.mem_map.2 ⟨_, hm, rfl⟩)
      simp [hmem, eq_comm]
    · rw [beq_eq_false_iff_ne.2 heq]
      simp [heq, ih hrest]

namespace Describes

variable {t : LabelTable} {program : List Instruction}

theorem map_fst_entries (h : t.Describes program) :
    t.entries.map Prod.fst = (program.flatMap (·.labels)).reverse := by
  rw [h.entries, List.map_reverse, map_fst_carried]

theorem unique {t' : LabelTable} (h : t.Describes program) (h' : t'.Describes program) :
    t = t' := by
  cases t
  cases t'
  rw [mk.injEq]
  exact h.entries.trans h'.entries.symm

/-- **A label names the one instruction that carries it.** -/
theorem find?_eq_some (h : t.Describes program) {label : String} {k : Nat} :
    t.find? label = some k ↔ ∃ i, program[k]? = some i ∧ label ∈ i.labels := by
  have hnodup : (t.entries.map Prod.fst).Nodup := by
    rw [h.map_fst_entries]
    exact List.nodup_reverse.2 h.labels_nodup
  rw [find?, lookup_eq_some_iff_mem hnodup, h.entries, List.mem_reverse, mem_carried]
  constructor
  · rintro ⟨n, i, rfl, hi⟩
    exact ⟨i, by simpa using hi⟩
  · rintro ⟨i, hi⟩
    exact ⟨k, i, by simp, hi⟩

theorem contains_iff (h : t.Describes program) {label : String} :
    t.contains label ↔ label ∈ program.flatMap (·.labels) := by
  rw [LabelTable.contains_iff, h.map_fst_entries, List.mem_reverse]

/-- No two instructions carry the same label. -/
theorem eq_of_mem_labels (h : t.Describes program) {label : String} {j k : Nat} {i i' : Instruction}
    (hj : program[j]? = some i) (hk : program[k]? = some i') (hi : label ∈ i.labels)
    (hi' : label ∈ i'.labels) : j = k := by
  have h₁ := h.find?_eq_some.2 ⟨i, hj, hi⟩
  have h₂ := h.find?_eq_some.2 ⟨i', hk, hi'⟩
  exact Option.some.inj (h₁.symm.trans h₂)

end Describes

/-! ## Entering labels -/

/-- Labels entered one after the other. -/
theorem entries_insertAll (t : LabelTable) (index : Nat) (labels : List String) :
    (t.insertAll index labels).entries = (labels.map (·, index)).reverse ++ t.entries := by
  induction labels generalizing t with
  | nil => rfl
  | cons l labels ih =>
    rw [insertAll, List.foldl_cons, ← insertAll, ih, insert, List.map_cons, List.reverse_cons,
      List.append_assoc]
    rfl

theorem contains_insertAll (t : LabelTable) (index : Nat) (labels : List String) (label : String) :
    (t.insertAll index labels).contains label = (t.contains label || labels.contains label) := by
  rw [Bool.eq_iff_iff, contains_iff, entries_insertAll, Bool.or_eq_true, contains_iff,
    List.map_append, List.mem_append, List.map_reverse, List.mem_reverse, List.map_map,
    List.contains_iff_mem, or_comm]
  simp [Function.comp_def]

/-- **To look for a label that is there twice and to enter labels as long as they are new comes to
the same.** -/
theorem addAll?_eq (t : LabelTable) (index : Nat) (labels : List String) :
    t.addAll? index labels =
      match t.duplicate? [] labels with
      | some label => .error label
      | none => .ok (t.insertAll index labels) := by
  have key : ∀ rest before, (t.insertAll index before).addAll? index rest =
      match t.duplicate? before rest with
      | some label => .error label
      | none => .ok (t.insertAll index (before ++ rest)) := by
    intro rest
    induction rest with
    | nil => intro before; simp [addAll?, duplicate?]
    | cons label rest ih =>
      intro before
      have hnext : (t.insertAll index before).insert label index =
          t.insertAll index (before ++ [label]) := by simp [insertAll]
      rw [addAll?, duplicate?, contains_insertAll, hnext, ih]
      split
      · rfl
      · simp
  exact key labels []

/-- Labels are entered exactly if all are new. -/
theorem addAll?_eq_ok {t t' : LabelTable} {index : Nat} {labels : List String} :
    t.addAll? index labels = .ok t' ↔
      labels.Nodup ∧ (∀ l ∈ labels, l ∉ t.entries.map Prod.fst) ∧
        t' = t.insertAll index labels := by
  induction labels generalizing t with
  | nil => simp [addAll?, insertAll, eq_comm]
  | cons l labels ih =>
    rw [addAll?]
    by_cases hl : l ∈ t.entries.map Prod.fst
    · rw [if_pos (contains_iff.2 hl)]
      exact ⟨fun h => (nomatch h), fun h => absurd hl (h.2.1 l (by simp))⟩
    · have hkeys : (t.insert l index).entries.map Prod.fst = l :: t.entries.map Prod.fst := rfl
      rw [if_neg (fun h => hl (contains_iff.1 h)), ih, hkeys]
      constructor
      · rintro ⟨hnodup, hnew, heq⟩
        refine ⟨List.nodup_cons.2 ⟨fun h => hnew l h (by simp), hnodup⟩, ?_, heq⟩
        exact List.forall_mem_cons.2 ⟨hl, fun k hk h => hnew k hk (List.mem_cons_of_mem _ h)⟩
      · rintro ⟨hnodup, hnew, heq⟩
        obtain ⟨hfresh, hnodup⟩ := List.nodup_cons.1 hnodup
        refine ⟨hnodup, fun k hk h => ?_, heq⟩
        rcases List.mem_cons.1 h with rfl | h
        · exact hfresh hk
        · exact hnew k (List.mem_cons_of_mem _ hk) h

/-- The labels of one more instruction. -/
theorem Describes.insertAll {t : LabelTable} {program : List Instruction} (h : t.Describes program)
    {i : Instruction} (hnodup : i.labels.Nodup)
    (hnew : ∀ l ∈ i.labels, l ∉ program.flatMap (·.labels)) :
    (t.insertAll program.length i.labels).Describes
      (program ++ [i]) := by
  constructor
  · rw [entries_insertAll, h.entries, carried_append, List.reverse_append]
    simp [carried]
  · rw [List.flatMap_append, List.flatMap_singleton, List.nodup_append]
    refine ⟨h.labels_nodup, hnodup, ?_⟩
    rintro k hk l hl rfl
    exact hnew k hl hk

/-- **An instruction is entered exactly if no label would be carried twice**, and then the table
describes the longer program. -/
theorem Describes.addAll?_eq_ok {t t' : LabelTable} {program : List Instruction}
    (h : t.Describes program) {i : Instruction} :
    t.addAll? program.length i.labels = .ok t' ↔ t'.Describes (program ++ [i]) := by
  rw [LabelTable.addAll?_eq_ok, h.map_fst_entries]
  constructor
  · rintro ⟨hnodup, hnew, rfl⟩
    exact h.insertAll hnodup fun l hl hk => hnew l hl (List.mem_reverse.2 hk)
  · intro h'
    have hlabels := h'.labels_nodup
    rw [List.flatMap_append, List.flatMap_singleton, List.nodup_append] at hlabels
    obtain ⟨-, hnodup, hdisjoint⟩ := hlabels
    have hnew : ∀ l ∈ i.labels, l ∉ program.flatMap (·.labels) :=
      fun l hl hk => hdisjoint l hk l hl rfl
    refine ⟨hnodup, fun l hl hk => hnew l hl (List.mem_reverse.1 hk), ?_⟩
    exact h'.unique (h.insertAll hnodup hnew)

/-- **A program has a table exactly if no label is carried twice**, and then the table describes
it. -/
theorem ofProgram?_eq_ok {t : LabelTable} {program : List Instruction} :
    ofProgram? program = .ok t ↔ t.Describes program := by
  have key : ∀ (rest done : List Instruction) (t t' : LabelTable), t.Describes done →
      (t.addProgram? done.length rest = .ok t' ↔ t'.Describes (done ++ rest)) := by
    intro rest
    induction rest with
    | nil =>
      intro done t t' h
      rw [addProgram?, List.append_nil, Except.ok.injEq]
      exact ⟨fun e => e ▸ h, h.unique⟩
    | cons i rest ih =>
      intro done t t' h
      have hlen : done.length + 1 = (done ++ [i]).length := by simp
      have happend : done ++ i :: rest = (done ++ [i]) ++ rest := by simp
      rw [addProgram?, happend]
      cases hadd : t.addAll? done.length i.labels with
      | ok t₁ =>
        rw [hlen]
        exact ih (done ++ [i]) t₁ t' (h.addAll?_eq_ok.1 hadd)
      | error label =>
        -- a table of the whole program would contain one of the shorter program
        refine ⟨fun e => (nomatch e), fun h' => ?_⟩
        have hnodup := h'.labels_nodup
        rw [List.flatMap_append, List.nodup_append] at hnodup
        obtain ⟨t₁, ht₁⟩ := exists_describes hnodup.1
        rw [h.addAll?_eq_ok.2 ht₁] at hadd
        cases hadd
  exact key program [] empty t describes_empty

end LabelTable

end Eqasm
