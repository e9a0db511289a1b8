import Eqasm.Backend.Recording
import Eqasm.Proofs.LabelTable.Carried
import Eqasm.Proofs.Machine.Effect

/-!
# Histories

A history is what a user does with a machine, one action after the other: programs are loaded,
instructions executed, registers and memory written. An action that is refused leaves the machine
as it is, one that fails leaves what was done before the failure.

`Machine.acts` is the machine behind a history and `Machine.handed` lists the calls that its backend
was asked for on the way; a backend that writes calls down has written just these
(`Machine.recorded_acts`).
-/

namespace Eqasm

/-! ## Calls of a bundle -/

section

variable {β : Type} [Backend β]

/-- The calls that are made of some calls in order: those up to the first that goes wrong, which is
made too. -/
def Datapath.made (s : Datapath β) : List Call → List Call
  | [] => []
  | c :: rest =>
    match s.perform c with
    | (s, .ok ()) => c :: s.made rest
    | (_, .error _) => [c]

/-- The calls that an operation makes. -/
def Datapath.calls (s : Datapath β) : Operation → List Call
  | .bundle _ ops =>
    match resolve s.targets ops with
    | .ok calls => s.made calls
    | .error _ => []
  | _ => []

theorem Datapath.calls_eq_nil {s : Datapath β} {o : Operation}
    (h : ∀ pi ops, o ≠ .bundle pi ops) : s.calls o = [] := by
  cases o with
  | bundle pi ops => exact absurd rfl (h pi ops)
  | _ => rfl

end

namespace Machine

/-! ## Actions -/

/-- What can be done with a machine. -/
inductive Action where
  | upload (program : List Instruction)
  | append (i : Instruction)
  | step
  | run
  | restart
  | reset
  | setMaxCycles (n : Nat)
  | write (w : Datapath.Write)

variable {β : Type}

/-- The machine with another bound for its runs. -/
def setMaxCycles (m : Machine β) (n : Nat) : Machine β :=
  { m with config := { m.config with maxCycles := n } }

/-- Writes to the datapath. -/
def write (w : Datapath.Write) : Work (Machine β) Fault Unit :=
  (Datapath.write w).part (·.data) fun m data => { m with data }

variable [Backend β]

/-- The machine behind an action. -/
def act (m : Machine β) : Action → Machine β
  | .upload program => (upload program m).1
  | .append i => (append i m).1
  | .step => m.step.1
  | .run => m.run.1
  | .restart => m.restart
  | .reset => m.reset
  | .setMaxCycles n => m.setMaxCycles n
  | .write w => (write w m).1

/-- The machine behind a history. -/
def acts (m : Machine β) (history : List Action) : Machine β :=
  history.foldl act m

@[simp] theorem acts_nil (m : Machine β) : m.acts [] = m := rfl

@[simp] theorem acts_cons (m : Machine β) (a : Action) (history : List Action) :
    m.acts (a :: history) = (m.act a).acts history := rfl

theorem acts_append (m : Machine β) (history others : List Action) :
    m.acts (history ++ others) = (m.acts history).acts others :=
  List.foldl_append

omit [Backend β] in
/-- A program is checked before anything is changed. -/
theorem upload_eq (program : List Instruction) : upload (β := β) program = .attempt fun m => do
    let labels ← m.check program
    return { m.reset with program := program.toArray, labels } := by
  simp only [upload, Work.change_bind_change, Work.look_bind_change]

omit [Backend β] in
/-- An upload that is accepted installs the program with its labels. -/
theorem upload_eq_ok {m m' : Machine β} {program : List Instruction} :
    upload program m = (m', .ok ()) ↔ ∃ labels, m.check program = .ok labels ∧
      m' = { m.reset with program := program.toArray, labels } := by
  rw [upload_eq, Work.attempt_eq_ok, except_bind_eq_ok]
  refine exists_congr fun labels => and_congr_right fun _ => ?_
  exact ⟨fun e => (Except.ok.inj e).symm, fun e => e ▸ rfl⟩

omit [Backend β] in
/-- An upload that is refused changes nothing. -/
theorem upload_eq_error {m m' : Machine β} {program : List Instruction} {e : LoadError} :
    upload program m = (m', .error e) ↔ m' = m ∧ m.check program = .error e := by
  rw [upload_eq, Work.attempt_eq_error]
  refine and_congr_right fun _ => ?_
  cases m.check program with
  | error e' => simp [bind, Except.bind]
  | ok labels => exact ⟨nofun, nofun⟩

/-- An upload is refused or installs the program with its labels. -/
theorem act_upload (m : Machine β) (program : List Instruction) :
    m.act (.upload program) = m ∨ ∃ labels, m.check program = .ok labels ∧
      m.act (.upload program) = { m.reset with program := program.toArray, labels } := by
  rw [act]
  rcases h : upload program m with ⟨m', e | ⟨⟩⟩
  · exact .inl (upload_eq_error.1 h).1
  · obtain ⟨labels, hlabels, rfl⟩ := upload_eq_ok.1 h
    exact .inr ⟨labels, hlabels, rfl⟩

omit [Backend β] in
/-- An instruction is checked before anything is changed. Both ways to look at its labels come to
the same. -/
theorem append_eq (i : Instruction) : append (β := β) i = .attempt fun m =>
    if m.config.programCapacity ≤ m.program.size then
      .error (.programTooLarge (m.program.size + 1) m.config.programCapacity)
    else match m.labels.addAll? m.program.size i.labels with
      | .error label => .error (.duplicateLabel label)
      | .ok labels => .ok { m with program := m.program.push i, labels } := by
  simp only [append, Work.change_bind_change, Work.look_bind_change]
  refine congrArg Work.attempt (funext fun m => ?_)
  rw [checkNext, LabelTable.addAll?_eq]
  split
  · rfl
  · cases m.labels.duplicate? [] i.labels with
    | none => rfl
    | some label => rfl

omit [Backend β] in
/-- An instruction that is accepted is added with its labels. -/
theorem append_eq_ok {m m' : Machine β} {i : Instruction} :
    append i m = (m', .ok ()) ↔ m.program.size < m.config.programCapacity ∧
      ∃ labels, m.labels.addAll? m.program.size i.labels = .ok labels ∧
        m' = { m with program := m.program.push i, labels } := by
  rw [append_eq, Work.attempt_eq_ok]
  by_cases hfull : m.config.programCapacity ≤ m.program.size
  · simp [hfull, Nat.not_lt.2 hfull]
  · cases hadd : m.labels.addAll? m.program.size i.labels with
    | error label => simp [hfull]
    | ok labels => simp [hfull, Nat.lt_of_not_le hfull, eq_comm]

omit [Backend β] in
/-- An instruction that is refused changes nothing. -/
theorem eq_of_append_error {m m' : Machine β} {i : Instruction} {e : LoadError}
    (h : append i m = (m', .error e)) : m' = m := by
  rw [append_eq] at h
  exact (Work.attempt_eq_error.1 h).1

/-- An instruction is refused or added with its labels. -/
theorem act_append (m : Machine β) (i : Instruction) :
    m.act (.append i) = m ∨ ∃ labels, m.labels.addAll? m.program.size i.labels = .ok labels ∧
      m.act (.append i) = { m with program := m.program.push i, labels } := by
  rw [act]
  rcases h : append i m with ⟨m', e | ⟨⟩⟩
  · exact .inl (eq_of_append_error h)
  · obtain ⟨-, labels, hlabels, rfl⟩ := append_eq_ok.1 h
    exact .inr ⟨labels, hlabels, rfl⟩

/-- A write changes the datapath at most. -/
theorem act_write (m : Machine β) (w : Datapath.Write) :
    ∃ data, m.data.Effect data ∧ m.act (.write w) = { m with data } := by
  rcases h : Datapath.write w m.data with ⟨data, r⟩
  refine ⟨data, Datapath.effect_of_write h, ?_⟩
  rw [act, write, Work.part, h]

/-! ## Notes and calls -/

/-- The notes of the next step, where `note` says what is noted of an operation. -/
def stepNotes {α : Type} (note : Datapath β → Operation → List α) (m : Machine β) : List α :=
  if m.halted then []
  else match m.program[m.pc]? with
    | none => []
    | some i => note m.data i.operation

/-- The notes of a run for at most `n` more cycles. -/
def runForNotes {α : Type} (note : Datapath β → Operation → List α) : Nat → Machine β → List α
  | 0, _ => []
  | n + 1, m =>
    if m.halted then []
    else m.stepNotes note ++ match m.step with
      | (m, none) => runForNotes note n m
      | (_, some _) => []

/-- The notes of an action. -/
def notesOf {α : Type} (note : Datapath β → Operation → List α) (m : Machine β) : Action → List α
  | .step => m.stepNotes note
  | .run => runForNotes note (m.config.maxCycles - m.cycle) m
  | .upload _ | .append _ | .restart | .reset | .setMaxCycles _ | .write _ => []

/-- The notes of a history. -/
def notes {α : Type} (note : Datapath β → Operation → List α) (m : Machine β) :
    List Action → List α
  | [] => []
  | a :: history => m.notesOf note a ++ (m.act a).notes note history

/-- The calls of the next step. -/
def stepCalls (m : Machine β) : List Call :=
  m.stepNotes Datapath.calls

/-- The calls of a run for at most `n` more cycles. -/
def runForCalls (n : Nat) (m : Machine β) : List Call :=
  runForNotes Datapath.calls n m

/-- The calls of an action. -/
def callsOf (m : Machine β) (a : Action) : List Call :=
  m.notesOf Datapath.calls a

/-- The calls that the backend is handed in a history. -/
def handed (m : Machine β) (history : List Action) : List Call :=
  m.notes Datapath.calls history

theorem runForCalls_succ (n : Nat) (m : Machine β) : runForCalls (n + 1) m =
    if m.halted then []
    else m.stepCalls ++ match m.step with
      | (m, none) => runForCalls n m
      | (_, some _) => [] :=
  rfl

theorem handed_cons (m : Machine β) (a : Action) (history : List Action) :
    m.handed (a :: history) = m.callsOf a ++ (m.act a).handed history :=
  rfl

/-! ## Steps -/

/-- What a step makes of a machine, and the error that it ends with. -/
inductive Steps (m : Machine β) : Machine β → Option ExecError → Prop
  | rest (hh : m.halted = true) : Steps m m none
  | outside (hh : m.halted = false) (hi : m.program[m.pc]? = none) :
    Steps m m (some (.pcOutOfRange m.pc m.program.size))
  | fault {i : Instruction} {data : Datapath β} {cause : Fault} (hh : m.halted = false)
    (hi : m.program[m.pc]? = some i) (he : m.data.execute i.operation = (data, .error cause)) :
    Steps m { m with data, cycle := m.cycle + 1 } (some (.fault m.pc (m.cycle + 1) cause))
  | next {i : Instruction} {data : Datapath β} (hh : m.halted = false)
    (hi : m.program[m.pc]? = some i) (he : m.data.execute i.operation = (data, .ok .next)) :
    Steps m { m with data, cycle := m.cycle + 1, pc := m.pc + 1 } none
  | stop {i : Instruction} {data : Datapath β} (hh : m.halted = false)
    (hi : m.program[m.pc]? = some i) (he : m.data.execute i.operation = (data, .ok .stop)) :
    Steps m { m with data, cycle := m.cycle + 1, pc := m.pc + 1, halted := true } none
  | jump {i : Instruction} {data : Datapath β} {label : String} {k : Nat} (hh : m.halted = false)
    (hi : m.program[m.pc]? = some i)
    (he : m.data.execute i.operation = (data, .ok (.jump label)))
    (hk : m.labels.find? label = some k) :
    Steps m { m with data, cycle := m.cycle + 1, pc := k } none
  | lost {i : Instruction} {data : Datapath β} {label : String} (hh : m.halted = false)
    (hi : m.program[m.pc]? = some i)
    (he : m.data.execute i.operation = (data, .ok (.jump label)))
    (hk : m.labels.find? label = none) :
    Steps m { m with data, cycle := m.cycle + 1 } (some (.undefinedLabel m.pc label))

/-- **What a step can do.** -/
theorem steps_of_step {m m' : Machine β} {e : Option ExecError} (h : m.step = (m', e)) :
    m.Steps m' e := by
  unfold step at h
  split at h
  · cases h
    exact .rest ‹_›
  · rename_i hhalted
    rw [Bool.not_eq_true] at hhalted
    split at h
    · cases h
      exact .outside hhalted ‹_›
    · rename_i i hi
      split at h
      · cases h
        exact .fault hhalted hi ‹_›
      · cases h
        exact .next hhalted hi ‹_›
      · cases h
        exact .stop hhalted hi ‹_›
      · rename_i hexecute
        split at h
        · cases h
          exact .jump hhalted hi hexecute ‹_›
        · cases h
          exact .lost hhalted hi hexecute ‹_›

/-- A machine does what a step can do. -/
theorem Steps.step_eq {m m' : Machine β} {e : Option ExecError} (h : m.Steps m' e) :
    m.step = (m', e) := by
  cases h with
  | rest hh => simp [step, hh]
  | outside hh hi => simp [step, hh, hi]
  | fault hh hi he | next hh hi he | stop hh hi he => simp [step, hh, hi, he]
  | jump hh hi he hk | lost hh hi he hk => simp [step, hh, hi, he, hk]

/-- Steps leave configuration, program and labels alone. -/
theorem step_keeps (m : Machine β) :
    m.step.1.config = m.config ∧ m.step.1.program = m.program ∧ m.step.1.labels = m.labels := by
  rcases hm : m.step with ⟨m', e⟩
  cases steps_of_step hm with
  | _ => exact ⟨rfl, rfl, rfl⟩

/-- What every step keeps, every run keeps. -/
theorem runFor_induction {P : Machine β → Prop} (hstep : ∀ m, P m → P m.step.1) (n : Nat)
    {m : Machine β} (h : P m) : P (runFor n m).1 := by
  induction n generalizing m with
  | zero => exact h
  | succ n ih =>
    have hm := hstep m h
    rw [runFor]
    split
    · exact h
    · split <;> rename_i hm' <;> rw [hm'] at hm
      · exact ih hm
      · exact hm

/-- **What every accepted action keeps, every history keeps.** -/
theorem acts_induction {P : Machine β → Prop}
    (hupload : ∀ (m : Machine β) program labels, P m → m.check program = .ok labels →
      P { m.reset with program := program.toArray, labels })
    (happend : ∀ (m : Machine β) i labels, P m →
      m.labels.addAll? m.program.size i.labels = .ok labels →
      P { m with program := m.program.push i, labels })
    (hstep : ∀ m, P m → P m.step.1) (hrestart : ∀ m, P m → P m.restart)
    (hreset : ∀ m, P m → P m.reset) (hbound : ∀ m n, P m → P (m.setMaxCycles n))
    (hwrite : ∀ (m : Machine β) data, P m → m.data.Effect data → P { m with data })
    {m : Machine β} (h : P m) (history : List Action) : P (m.acts history) := by
  induction history generalizing m with
  | nil => exact h
  | cons a history ih =>
    refine ih ?_
    cases a with
    | upload program =>
      rcases m.act_upload program with e | ⟨labels, hlabels, e⟩ <;> rw [e]
      · exact h
      · exact hupload m program labels h hlabels
    | append i =>
      rcases m.act_append i with e | ⟨labels, hlabels, e⟩ <;> rw [e]
      · exact h
      · exact happend m i labels h hlabels
    | step => exact hstep m h
    | run => exact runFor_induction hstep _ h
    | restart => exact hrestart m h
    | reset => exact hreset m h
    | setMaxCycles n => exact hbound m n h
    | write w =>
      obtain ⟨data, hdata, e⟩ := m.act_write w
      rw [e]
      exact hwrite m data h hdata

end Machine

/-! ## Recorded calls -/

namespace Datapath

theorem recorded_perform (s : Datapath Recording) (c : Call) :
    (s.perform c).1.backend.calls = s.backend.calls.push c := by
  cases c with
  | gate name q | pairGate name p q => rfl
  | measure q =>
    simp only [perform, Backend.measure]
    split <;> rfl

theorem recorded_issue (s : Datapath Recording) (calls : List Call) :
    (s.issue calls).1.backend.calls.toList = s.backend.calls.toList ++ s.made calls := by
  induction calls generalizing s with
  | nil => simp [issue, made]
  | cons c calls ih =>
    rw [issue, made]
    rcases ht : s.perform c with ⟨t, cause | ⟨⟩⟩
    all_goals
      have hc : t.backend.calls = s.backend.calls.push c := by
        simpa only [ht] using recorded_perform s c
    · simp only [hc, Array.toList_push]
    · simp only [ih t, hc, Array.toList_push, List.append_assoc, List.singleton_append]

theorem recorded_execute (s : Datapath Recording) (o : Operation) :
    (s.execute o).1.backend.calls.toList = s.backend.calls.toList ++ s.calls o := by
  rcases h : s.execute o with ⟨t, r⟩
  cases executes_of_execute h with
  | failed ho => rw [calls_eq_nil ho, List.append_nil]
  | done ho hcompute =>
    rw [calls_eq_nil ho, List.append_nil, (effect_of_compute hcompute).results_backend.2]
  | unresolved hresolve => simp [calls, hresolve]
  | @interrupted _ _ issued _ _ hresolve hissue | @issued _ _ issued _ hresolve hissue =>
    simpa only [calls, hresolve, hissue] using recorded_issue s issued

end Datapath

namespace Machine

theorem recorded_step (m : Machine Recording) :
    m.step.1.data.backend.calls.toList = m.data.backend.calls.toList ++ m.stepCalls := by
  rcases hm : m.step with ⟨m', e⟩
  rw [stepCalls, stepNotes]
  cases steps_of_step hm with
  | rest hh => simp [hh]
  | outside hh hi => simp [hh, hi]
  | @fault i _ _ hh hi he | @next i _ hh hi he | @stop i _ hh hi he | @jump i _ _ _ hh hi he
  | @lost i _ _ hh hi he =>
    have hrecorded := m.data.recorded_execute i.operation
    rw [he] at hrecorded
    simpa [hh, hi] using hrecorded

theorem recorded_runFor (n : Nat) (m : Machine Recording) :
    (runFor n m).1.data.backend.calls.toList =
      m.data.backend.calls.toList ++ runForCalls n m := by
  induction n generalizing m with
  | zero => simp [runFor, runForCalls, runForNotes]
  | succ n ih =>
    rw [runFor, runForCalls_succ]
    split
    · simp
    · rcases hm : m.step with ⟨m', _ | e⟩
      all_goals
        have hstep : m'.data.backend.calls.toList =
            m.data.backend.calls.toList ++ m.stepCalls := by
          simpa only [hm] using m.recorded_step
      · simp only [ih, hstep, List.append_assoc]
      · simp only [hstep, List.append_nil]

/-- **A backend that writes calls down has written those of the history.** -/
theorem recorded_acts (m : Machine Recording) (history : List Action) :
    (m.acts history).data.backend.calls.toList =
      m.data.backend.calls.toList ++ m.handed history := by
  induction history generalizing m with
  | nil => simp [handed, notes]
  | cons a history ih =>
    have ha : (m.act a).data.backend.calls.toList =
        m.data.backend.calls.toList ++ m.callsOf a := by
      cases a with
      | step => exact m.recorded_step
      | run => exact recorded_runFor _ m
      | upload program =>
        rcases m.act_upload program with e | ⟨labels, -, e⟩ <;> rw [e]
        · exact (List.append_nil _).symm
        · exact (List.append_nil _).symm
      | append i =>
        rcases m.act_append i with e | ⟨labels, -, e⟩ <;> rw [e]
        · exact (List.append_nil _).symm
        · exact (List.append_nil _).symm
      | restart | reset | setMaxCycles n => exact (List.append_nil _).symm
      | write w =>
        obtain ⟨data, hdata, e⟩ := m.act_write w
        rw [e]
        simp only [hdata.results_backend.2]
        exact (List.append_nil _).symm
    rw [acts_cons, ih, ha, handed_cons, List.append_assoc]

end Machine

end Eqasm
