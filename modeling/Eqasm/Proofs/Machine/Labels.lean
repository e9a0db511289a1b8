import Eqasm.Backend.Ideal
import Eqasm.Proofs.LabelTable.Carried
import Eqasm.Proofs.Machine.History

/-!
# Labels of machines

The label table of a machine describes its program, whatever its history
(`Machine.labels_of_history`). So a branch that is taken goes to the one instruction that carries
its label. As long as no instruction is added behind a loaded program, all branches have their label
in the table (`Machine.Resolved`), and no execution ends with a label that is not defined.
-/

namespace Eqasm.Machine

variable {β : Type}

/-! ## The label table -/

/-- The table of a machine describes its program. -/
def Labelled (m : Machine β) : Prop :=
  m.labels.Describes m.program.toList

/-- A machine starts without a program. -/
theorem empty_of_make {config : Config} {backend : β} {m : Machine β}
    (h : make config backend = .ok m) : m.program = #[] ∧ m.Labelled := by
  obtain ⟨general, -, h⟩ := except_bind_eq_ok.1 h
  obtain ⟨floating, -, h⟩ := except_bind_eq_ok.1 h
  cases h
  exact ⟨rfl, LabelTable.describes_empty⟩

theorem labelled_of_check {m : Machine β} {program : List Instruction} {labels : LabelTable}
    (h : m.check program = .ok labels) : labels.Describes program := by
  unfold check at h
  split at h
  · cases h
  · split at h
    · cases h
    · rename_i t ht
      split at h
      · cases h
      · cases h
        exact LabelTable.ofProgram?_eq_ok.1 ht

theorem Labelled.append {m : Machine β} (h : m.Labelled) {i : Instruction} {labels : LabelTable}
    (hadd : m.labels.addAll? m.program.size i.labels = .ok labels) :
    labels.Describes (m.program.push i).toList := by
  rw [Array.toList_push]
  rw [← Array.length_toList] at hadd
  exact h.addAll?_eq_ok.1 hadd

variable [Backend β]

theorem Labelled.step {m : Machine β} (h : m.Labelled) : m.step.1.Labelled := by
  obtain ⟨-, hprogram, hlabels⟩ := m.step_keeps
  rw [Labelled, hprogram, hlabels]
  exact h

/-- **The table describes the program after every history.** -/
theorem Labelled.acts {m : Machine β} (h : m.Labelled) (history : List Action) :
    (m.acts history).Labelled := by
  refine acts_induction ?_ ?_ ?_ ?_ ?_ ?_ ?_ h history
  · exact fun _ _ _ _ hcheck => labelled_of_check hcheck
  · exact fun _ _ _ h hadd => h.append hadd
  · exact fun _ h => h.step
  · exact fun _ h => h
  · exact fun _ _ => LabelTable.describes_empty
  · exact fun _ _ h => h
  · exact fun _ _ h _ => h

/-! ## Branches -/

/-- A branch that is taken and goes on, goes to an instruction that carries its label. -/
theorem Labelled.branch {m m' : Machine β} (h : m.Labelled) (hstep : m.step = (m', none))
    (hhalted : m.halted = false) {i : Instruction} (hi : m.program[m.pc]? = some i)
    {flag : Flag} {label : String} (hbranch : i.operation = .br flag label)
    (hflag : m.data.flags.get flag = true) :
    ∃ j, m.program[m'.pc]? = some j ∧ label ∈ j.labels := by
  have hjump : i.operation.flow m.data.flags = .jump label :=
    Operation.flow_eq_jump.2 ⟨flag, hbranch, hflag⟩
  cases steps_of_step hstep with
  | rest hh => simp [hhalted] at hh
  | next _ hj he | stop _ hj he =>
    obtain rfl := Option.some.inj (hi.symm.trans hj)
    cases (Datapath.flow_of_execute he).trans hjump
  | jump _ hj he hk =>
    obtain rfl := Option.some.inj (hi.symm.trans hj)
    cases (Datapath.flow_of_execute he).trans hjump
    simpa using h.find?_eq_some.1 hk

/-- Every branch of the program has its label in the table. -/
def Resolved (m : Machine β) : Prop :=
  ∀ i ∈ m.program, ∀ label, i.operation.branchLabel? = some label → m.labels.contains label

theorem undefinedBranch?_eq_none {labels : LabelTable} {index : Nat} {program : List Instruction} :
    undefinedBranch? labels index program = none ↔
      ∀ i ∈ program, ∀ label, i.operation.branchLabel? = some label → labels.contains label := by
  induction program generalizing index with
  | nil => simp [undefinedBranch?]
  | cons i program ih =>
    rw [undefinedBranch?, List.forall_mem_cons, ← @ih (index + 1)]
    cases hi : i.operation.branchLabel? with
    | none => simp
    | some label =>
      by_cases hl : labels.contains label
      · simp [hl]
      · simp [hl]

omit [Backend β] in
theorem resolved_of_check {m : Machine β} {program : List Instruction} {labels : LabelTable}
    (h : m.check program = .ok labels) : ∀ i ∈ program, ∀ label,
      i.operation.branchLabel? = some label → labels.contains label := by
  unfold check at h
  split at h
  · cases h
  · split at h
    · cases h
    · split at h
      · cases h
      · rename_i hnone
        cases h
        exact undefinedBranch?_eq_none.1 hnone

omit [Backend β] in
/-- When a program is accepted. -/
theorem check_eq_ok {m : Machine β} {program : List Instruction} {labels : LabelTable} :
    m.check program = .ok labels ↔ program.length ≤ m.config.programCapacity ∧
      labels.Describes program ∧ ∀ i ∈ program, ∀ label,
        i.operation.branchLabel? = some label → labels.contains label := by
  constructor
  · intro h
    refine ⟨?_, labelled_of_check h, resolved_of_check h⟩
    unfold check at h
    split at h
    · cases h
    · omega
  · rintro ⟨hlen, hdescribes, hresolved⟩
    have hnone : undefinedBranch? labels 0 program = none :=
      undefinedBranch?_eq_none.2 hresolved
    rw [check, if_neg (by omega), LabelTable.ofProgram?_eq_ok.2 hdescribes]
    simp only [hnone]

omit [Backend β] in
theorem resolved_of_upload {m m' : Machine β} {program : List Instruction}
    (h : upload program m = (m', .ok ())) : m'.Resolved := by
  obtain ⟨labels, hlabels, rfl⟩ := upload_eq_ok.1 h
  intro i hi
  exact resolved_of_check hlabels i (by simpa using hi)

theorem Resolved.step {m : Machine β} (h : m.Resolved) : m.step.1.Resolved := by
  obtain ⟨-, hprogram, hlabels⟩ := m.step_keeps
  rw [Resolved, hprogram, hlabels]
  exact h

/-- Every action but the addition of an instruction keeps branches resolved. -/
theorem Resolved.act {m : Machine β} (h : m.Resolved) {a : Action} (ha : ∀ i, a ≠ .append i) :
    (m.act a).Resolved := by
  cases a with
  | upload program =>
    rcases m.act_upload program with e | ⟨labels, hlabels, e⟩ <;> rw [e]
    · exact h
    · intro i hi
      exact resolved_of_check hlabels i (by simpa using hi)
  | append i => exact absurd rfl (ha i)
  | step => exact h.step
  | run => exact runFor_induction (fun _ h => Resolved.step h) _ h
  | restart | setMaxCycles n => exact h
  | reset => exact fun i hi => absurd hi (by simp [Machine.act, reset])
  | write w =>
    obtain ⟨data, -, e⟩ := m.act_write w
    rw [e]
    exact h

theorem Resolved.acts {m : Machine β} (h : m.Resolved) {history : List Action}
    (ha : ∀ i, .append i ∉ history) : (m.acts history).Resolved := by
  induction history generalizing m with
  | nil => exact h
  | cons a history ih =>
    have hfirst : ∀ i, a ≠ .append i := fun i e => ha i (by simp [e])
    exact ih (h.act hfirst) fun i hi => ha i (List.mem_cons_of_mem _ hi)

/-- A step from a machine with resolved branches finds every label. -/
theorem Resolved.step_ne {m : Machine β} (h : m.Resolved) (pc : Nat) (label : String) :
    m.step.2 ≠ some (.undefinedLabel pc label) := by
  rcases hm : m.step with ⟨m', e⟩
  cases steps_of_step hm with
  | @lost i _ l _ hi he hk =>
    obtain ⟨flag, hbranch, -⟩ := Operation.flow_eq_jump.1 (Datapath.flow_of_execute he).symm
    have hcontains := h i (Array.mem_of_getElem? hi) l (by rw [hbranch]; rfl)
    simp [LabelTable.contains, hk] at hcontains
  | _ => simp

/-- A run from a machine with resolved branches finds every label. -/
theorem Resolved.runFor_ne {m : Machine β} (h : m.Resolved) (n pc : Nat) (label : String) :
    (runFor n m).2 ≠ .error (.undefinedLabel pc label) := by
  induction n generalizing m with
  | zero => simp [runFor]
  | succ n ih =>
    have hstep := h.step
    have hne := h.step_ne pc label
    rw [runFor]
    split
    · simp
    · split <;> rename_i hm <;> rw [hm] at hstep hne
      · exact ih hstep
      · intro e
        exact hne (congrArg some (Except.error.inj e))

/-! ## Histories -/

/-- A history that ends where a program is loaded: at the start, with a reset or with an accepted
upload. -/
inductive Loaded (m : Machine β) : List Action → Prop
  | start : Loaded m []
  | reset (history : List Action) : Loaded m (history ++ [.reset])
  | upload (history : List Action) {program : List Instruction} {m' : Machine β}
    (h : Machine.upload program (m.acts history) = (m', .ok ())) :
    Loaded m (history ++ [.upload program])

theorem resolved_of_loaded {m : Machine β} (h : m.program = #[]) {history : List Action}
    (hl : m.Loaded history) : (m.acts history).Resolved := by
  cases hl with
  | start =>
    intro i hi
    simp [h] at hi
  | reset history =>
    intro i hi
    rw [acts_append] at hi
    exact absurd hi (by simp [Machine.act, Machine.reset])
  | @upload history program m' hm =>
    have hact : (m.acts history).acts [.upload program] = m' := by
      simp [Machine.act, hm]
    rw [acts_append, hact]
    exact resolved_of_upload hm

/-- **The labels of a machine.** After every history the label table gives exactly the instructions
that carry labels, and no label is carried twice. A branch that is taken goes to the one instruction
that carries its label. While no instruction was added since a program was loaded, neither steps nor
runs come to a label that is not defined. -/
theorem labels_of_history {config : Config} {backend : β} {m₀ m : Machine β}
    (hmake : make config backend = .ok m₀) (history : List Action) (hm : m₀.acts history = m) :
    (∀ label k, m.labels.find? label = some k ↔
      ∃ i, m.program[k]? = some i ∧ label ∈ i.labels) ∧
    (m.program.toList.flatMap (·.labels)).Nodup ∧
    (∀ m' i flag label, m.step = (m', none) → m.halted = false → m.program[m.pc]? = some i →
      i.operation = .br flag label → m.data.flags.get flag = true →
      ∃ j, m.program[m'.pc]? = some j ∧ label ∈ j.labels ∧
        ∀ k j', m.program[k]? = some j' → label ∈ j'.labels → k = m'.pc) ∧
    ∀ loaded others, history = loaded ++ others → m₀.Loaded loaded → (∀ i, .append i ∉ others) →
      ∀ n pc label, (m.acts (.replicate n .step)).step.2 ≠ some (.undefinedLabel pc label) ∧
        (m.acts (.replicate n .step)).run.2 ≠ .error (.undefinedLabel pc label) := by
  obtain ⟨hempty, hlabelled⟩ := empty_of_make hmake
  have hlabels : m.Labelled := hm ▸ hlabelled.acts history
  refine ⟨fun label k => ?_, hlabels.labels_nodup, ?_, ?_⟩
  · simpa using hlabels.find?_eq_some
  · intro m' i flag label hstep hhalted hi hbranch hflag
    obtain ⟨j, hj, hl⟩ := hlabels.branch hstep hhalted hi hbranch hflag
    refine ⟨j, hj, hl, fun k j' hk hl' => ?_⟩
    exact hlabels.eq_of_mem_labels (by simpa using hk) (by simpa using hj) hl' hl
  · rintro loaded others rfl hloaded ha n pc label
    have hresolved : m.Resolved := by
      rw [← hm, acts_append]
      exact (resolved_of_loaded hempty hloaded).acts ha
    have hsteps : (m.acts (.replicate n .step)).Resolved :=
      hresolved.acts fun i hi => by cases (List.mem_replicate.1 hi).2
    exact ⟨hsteps.step_ne pc label, hsteps.runFor_ne _ pc label⟩

/-- A loop behind an upload and a step. -/
theorem labels_of_history_of_loop :
    ∃ m₀ m : Machine Ideal, make { generalCount := 1, floatCount := 1, qubits := 1 } ⟨⟩ = .ok m₀ ∧
      m₀.acts [.upload [⟨["loop"], .nop⟩, ⟨[], .br .always "loop"⟩], .step] = m ∧
      m.labels.find? "loop" = some 0 ∧
      ∀ n pc label, (m.acts (.replicate n .step)).run.2 ≠ .error (.undefinedLabel pc label) := by
  have hupload : ∀ m₀ : Machine Ideal,
      make { generalCount := 1, floatCount := 1, qubits := 1 } ⟨⟩ = .ok m₀ →
      ∃ m', upload [⟨["loop"], .nop⟩, ⟨[], .br .always "loop"⟩] m₀ = (m', .ok ()) := by
    rintro m₀ ⟨⟩
    exact ⟨_, rfl⟩
  have hmake : ∃ m₀ : Machine Ideal,
      make { generalCount := 1, floatCount := 1, qubits := 1 } ⟨⟩ = .ok m₀ := ⟨_, rfl⟩
  obtain ⟨m₀, hmake⟩ := hmake
  obtain ⟨m', hupload⟩ := hupload m₀ hmake
  obtain ⟨hfind, -, -, hrun⟩ := labels_of_history hmake
    [.upload [⟨["loop"], .nop⟩, ⟨[], .br .always "loop"⟩], .step] rfl
  refine ⟨m₀, _, hmake, rfl, ?_, fun n pc label => ?_⟩
  · cases hmake
    exact (hfind _ _).2 ⟨⟨["loop"], .nop⟩, rfl, by simp⟩
  · exact (hrun [.upload _] [.step] rfl (.upload [] hupload) (by simp) n pc label).2

end Eqasm.Machine
