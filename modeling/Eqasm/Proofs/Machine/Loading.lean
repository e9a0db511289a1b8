import Eqasm.Backend.Ideal
import Eqasm.Proofs.Machine.Labels

/-!
# Whole programs and single instructions

A program can be loaded as a whole or, behind a reset, instruction by instruction. Both ways end in
the same machine, and they refuse the same programs, except that single instructions may branch to
labels that are not there (`Machine.upload_iff_appends`).
-/

namespace Eqasm

theorem Operation.branchLabel?_eq_some {o : Operation} {label : String} :
    o.branchLabel? = some label ↔ ∃ flag, o = .br flag label := by
  cases o <;> simp [branchLabel?]

namespace Machine

variable {β : Type} {m m' : Machine β} {i : Instruction} {program : List Instruction}

/-- Adds instructions, one after the other. -/
def appends : List Instruction → Work (Machine β) LoadError Unit
  | [] => return
  | i :: rest => do
    append i
    appends rest

/-! ## Single instructions -/

/-- **An instruction is added exactly if there is room and no label would be carried twice**, and
then the table describes the longer program. -/
theorem Labelled.append_eq_ok (h : m.Labelled) : Machine.append i m = (m', .ok ()) ↔
    m.program.size < m.config.programCapacity ∧ ∃ labels : LabelTable,
      labels.Describes (m.program.toList ++ [i]) ∧
      m' = { m with program := m.program.push i, labels } := by
  have hadd : ∀ labels, m.labels.addAll? m.program.size i.labels = .ok labels ↔
      labels.Describes (m.program.toList ++ [i]) := fun labels => h.addAll?_eq_ok
  simp only [Machine.append_eq_ok, hadd]

/-- **Instructions are added one after the other exactly if there is room for all of them and no
label is carried twice in the end.** -/
theorem Labelled.appends_eq_ok (h : m.Labelled)
    (hsize : m.program.size ≤ m.config.programCapacity) : appends program m = (m', .ok ()) ↔
      m.program.size + program.length ≤ m.config.programCapacity ∧ ∃ labels : LabelTable,
        labels.Describes (m.program.toList ++ program) ∧
        m' = { m with program := m.program ++ program.toArray, labels } := by
  induction program generalizing m with
  | nil =>
    have hdone : appends [] m = (m, .ok ()) := rfl
    simp only [hdone, List.append_nil, List.length_nil, Nat.add_zero, hsize, true_and,
      Array.append_empty]
    constructor
    · exact fun e => ⟨m.labels, h, (Prod.mk.inj e).1.symm⟩
    · rintro ⟨labels, hlabels, rfl⟩
      rw [hlabels.unique h]
  | cons i rest ih =>
    have hlist : m.program.toList ++ i :: rest = (m.program.push i).toList ++ rest := by simp
    have harray : m.program ++ (i :: rest).toArray = m.program.push i ++ rest.toArray := by simp
    -- the table of the machine behind the first instruction describes its program again
    have hrest : ∀ labels : LabelTable, labels.Describes (m.program.toList ++ [i]) →
        m.program.size < m.config.programCapacity →
        (appends rest { m with program := m.program.push i, labels } = (m', .ok ()) ↔
          m.program.size + 1 + rest.length ≤ m.config.programCapacity ∧ ∃ labels' : LabelTable,
            labels'.Describes ((m.program.push i).toList ++ rest) ∧
            m' = { m with program := m.program.push i ++ rest.toArray, labels := labels' }) := by
      intro labels hlabels hroom
      have hlabelled : Labelled { m with program := m.program.push i, labels } := by
        simpa [Labelled] using hlabels
      simpa only [Array.size_push] using ih hlabelled (by simpa using Nat.succ_le_of_lt hroom)
    rw [appends, Work.bind_eq_ok, hlist, harray, List.length_cons]
    constructor
    · rintro ⟨⟨⟩, m₁, happend, hm'⟩
      obtain ⟨hroom, labels, hlabels, rfl⟩ := h.append_eq_ok.1 happend
      obtain ⟨hlen, hdescribes⟩ := (hrest labels hlabels hroom).1 hm'
      exact ⟨by omega, hdescribes⟩
    · rintro ⟨hlen, labels', hdescribes, rfl⟩
      have hnodup := hdescribes.labels_nodup
      rw [List.flatMap_append, List.nodup_append, Array.toList_push] at hnodup
      obtain ⟨labels, hlabels⟩ := LabelTable.exists_describes hnodup.1
      have hroom : m.program.size < m.config.programCapacity := by omega
      refine ⟨(), _, h.append_eq_ok.2 ⟨hroom, labels, hlabels, rfl⟩, ?_⟩
      exact (hrest labels hlabels hroom).2 ⟨by omega, labels', hdescribes, rfl⟩

/-! ## Whole programs -/

/-- Instructions are added to a machine that was reset. -/
theorem appends_reset_eq_ok : appends program m.reset = (m', .ok ()) ↔
    program.length ≤ m.config.programCapacity ∧ ∃ labels : LabelTable, labels.Describes program ∧
      m' = { m.reset with program := program.toArray, labels } := by
  have hempty : m.reset.Labelled := LabelTable.describes_empty
  rw [hempty.appends_eq_ok (Nat.zero_le _)]
  simp [reset, restart]

/-- **Both ways of loading agree.** A program is accepted exactly if there is room for it, no label
is carried twice and every branch goes to a label that is carried. This is so exactly if, behind a
reset, its instructions are accepted one after the other and every branch of the program finds its
label in the table then; the machine is the same in the end. An instruction that is refused leaves
the machine as it is. -/
theorem upload_iff_appends [Backend β] (m : Machine β) (program : List Instruction) :
    ((∃ m', upload program m = (m', .ok ())) ↔
      program.length ≤ m.config.programCapacity ∧ (program.flatMap (·.labels)).Nodup ∧
      ∀ i ∈ program, ∀ flag label, i.operation = .br flag label →
        ∃ j ∈ program, label ∈ j.labels) ∧
    (∀ m', upload program m = (m', .ok ()) ↔ appends program m.reset = (m', .ok ()) ∧
      ∀ i ∈ program, ∀ flag label, i.operation = .br flag label →
        ∃ k, m'.labels.find? label = some k) ∧
    ∀ (n n' : Machine β) i e, append i n = (n', .error e) → n' = n := by
  have hbranches : ∀ labels : LabelTable,
      (∀ i ∈ program, ∀ label, i.operation.branchLabel? = some label → labels.contains label) ↔
        ∀ i ∈ program, ∀ flag label, i.operation = .br flag label → labels.contains label := by
    intro labels
    simp only [Operation.branchLabel?_eq_some, forall_exists_index]
    exact forall₂_congr fun _ _ => forall_comm
  refine ⟨?_, fun m' => ?_, fun n n' i e => eq_of_append_error⟩
  · simp only [upload_eq_ok, check_eq_ok, hbranches]
    constructor
    · rintro ⟨m', labels, ⟨hlen, hlabels, hresolved⟩, rfl⟩
      refine ⟨hlen, hlabels.labels_nodup, fun i hi flag label hbranch => ?_⟩
      simpa using hlabels.contains_iff.1 (hresolved i hi flag label hbranch)
    · rintro ⟨hlen, hnodup, hcarried⟩
      obtain ⟨labels, hlabels⟩ := LabelTable.exists_describes hnodup
      refine ⟨_, labels, ⟨hlen, hlabels, fun i hi flag label hbranch => ?_⟩, rfl⟩
      exact hlabels.contains_iff.2 (by simpa using hcarried i hi flag label hbranch)
  · simp only [upload_eq_ok, check_eq_ok, hbranches, appends_reset_eq_ok]
    simp only [LabelTable.contains, Option.isSome_iff_exists]
    constructor
    · rintro ⟨labels, ⟨hlen, hlabels, hresolved⟩, rfl⟩
      exact ⟨⟨hlen, labels, hlabels, rfl⟩, hresolved⟩
    · rintro ⟨⟨hlen, labels, hlabels, rfl⟩, hresolved⟩
      exact ⟨labels, ⟨hlen, hlabels, hresolved⟩, rfl⟩

/-- A branch to a label that comes later. -/
theorem upload_iff_appends_of_forward :
    ∃ m m' : Machine Ideal,
      upload [⟨[], .br .always "end"⟩, ⟨["end"], .stop⟩] m = (m', .ok ()) ∧
      appends [⟨[], .br .always "end"⟩, ⟨["end"], .stop⟩] m.reset = (m', .ok ()) := by
  obtain ⟨m, hmake⟩ : ∃ m : Machine Ideal, make { generalCount := 1, floatCount := 1 } ⟨⟩ = .ok m :=
    ⟨_, rfl⟩
  have hroom : 2 ≤ m.config.programCapacity := by
    cases hmake
    decide
  obtain ⟨haccepted, hagree, -⟩ :=
    m.upload_iff_appends [⟨[], .br .always "end"⟩, ⟨["end"], .stop⟩]
  obtain ⟨m', hm'⟩ := haccepted.2 ⟨hroom, by decide, by simp⟩
  exact ⟨m, m', hm', ((hagree m').1 hm').1⟩

end Machine

end Eqasm
