import Eqasm.Proofs.Machine.Agreement
import Eqasm.Proofs.Machine.History

/-!
# Machines in lockstep

Two machines are alike if they differ in their datapaths at most, and these are related
(`Machine.Alike`). If the relation is kept by the operations of the programs, by the writes of users
and by restarts and resets (`Lockstep`), then machines that are alike stay alike in every history,
give the same answers and make the same calls (`Alike.acts`). For datapaths in agreement only
bundles are left to be looked at (`Datapath.lockstep_of_agrees`).
-/

namespace Eqasm

variable {β γ : Type}

/-! ## Datapaths -/

namespace Datapath

namespace Agrees

variable {s : Datapath β} {t : Datapath γ}

theorem restart (h : s.Agrees t) : s.restart.Agrees t.restart :=
  { h with flags := rfl }

theorem clear (h : s.Agrees t) : s.clear.Agrees t.clear :=
  { h with
    general := congrArg Bank.clear h.general
    floating := congrArg Bank.clear h.floating
    targets := congrArg TargetRegisters.clear h.targets }

end Agrees

end Datapath

/-- Operations with the property `O` have the same outcome on datapaths in the relation `S`, make
the same calls and keep the relation. So do all changes to the datapath that users make. -/
structure Lockstep [Backend β] [Backend γ] (S : Datapath β → Datapath γ → Prop)
    (O : Operation → Prop) : Prop where
  execute : ∀ {s t o}, S s t → O o → ∃ s' t' r,
    s.execute o = (s', r) ∧ t.execute o = (t', r) ∧ s.calls o = t.calls o ∧ S s' t'
  write : ∀ {s t}, S s t → ∀ w, ∃ s' t' r,
    Datapath.write w s = (s', r) ∧ Datapath.write w t = (t', r) ∧ S s' t'
  restart : ∀ {s t}, S s t → S s.restart t.restart
  clear : ∀ {s t}, S s t → S s.clear t.clear

/-- Datapaths in agreement are in lockstep if their bundles are, and if what else relates them is
kept by all other operations and by writes. -/
theorem Datapath.lockstep_of_agrees [Backend β] [Backend γ] {S : Datapath β → Datapath γ → Prop}
    {O : Operation → Prop} (hagrees : ∀ {s t}, S s t → s.Agrees t)
    (hkeeps : ∀ {s t s' t'}, S s t → s'.Agrees t' → s.Effect s' → t.Effect t' → S s' t')
    (hresults : ∀ {s t o}, S s t → O o → o.ReadsResult → s.results = t.results)
    (hbundle : ∀ {s t}, S s t → ∀ pi ops, ∃ s' t' r, s.execute (.bundle pi ops) = (s', r) ∧
      t.execute (.bundle pi ops) = (t', r) ∧ s.calls (.bundle pi ops) = t.calls (.bundle pi ops) ∧
      S s' t')
    (hrestart : ∀ {s t}, S s t → S s.restart t.restart)
    (hclear : ∀ {s t}, S s t → S s.clear t.clear) : Lockstep S O where
  execute := by
    intro s t o h ho
    by_cases hb : ∃ pi ops, o = .bundle pi ops
    · obtain ⟨pi, ops, rfl⟩ := hb
      exact hbundle h pi ops
    · have hne : ∀ pi ops, o ≠ .bundle pi ops := fun pi ops e => hb ⟨pi, ops, e⟩
      obtain ⟨s', t', r, hs, ht, hst, heffect, heffect'⟩ := (hagrees h).execute hne (hresults h ho)
      refine ⟨s', t', r, hs, ht, ?_, hkeeps h hst heffect heffect'⟩
      rw [calls_eq_nil hne, calls_eq_nil hne]
  write := by
    intro s t h w
    obtain ⟨s', t', r, hs, ht, hst⟩ := (hagrees h).write w
    exact ⟨s', t', r, hs, ht, hkeeps h hst (effect_of_write hs) (effect_of_write ht)⟩
  restart := hrestart
  clear := hclear

namespace Machine

/-! ## Answers -/

/-- What a user is told behind an action. -/
inductive Answer where
  | done
  | loaded (r : Except LoadError Unit)
  | stepped (e : Option ExecError)
  | ran (r : Except ExecError Outcome)
  | written (r : Except Fault Unit)

section

variable [Backend β]

/-- The answer to an action. -/
def answer (m : Machine β) : Action → Answer
  | .upload program => .loaded (upload program m).2
  | .append i => .loaded (append i m).2
  | .step => .stepped m.step.2
  | .run => .ran m.run.2
  | .restart | .reset | .setMaxCycles _ => .done
  | .write w => .written (write w m).2

/-- The answers in a history. -/
def answers (m : Machine β) : List Action → List Answer
  | [] => []
  | a :: history => m.answer a :: (m.act a).answers history

end

/-- All operations that the action installs have the property `O`. -/
def Action.Installs (O : Operation → Prop) : Action → Prop
  | .upload program => ∀ i ∈ program, O i.operation
  | .append i => O i.operation
  | _ => True

section

variable [Backend β] {m : Machine β} {O : Operation → Prop}

/-- A program keeps a property of its operations if all instructions that are installed have it. -/
theorem forall_program_act (h : ∀ i ∈ m.program, O i.operation) {a : Action} (ha : a.Installs O) :
    ∀ i ∈ (m.act a).program, O i.operation := by
  have hkeeps : ∀ m : Machine β, (∀ i ∈ m.program, O i.operation) →
      ∀ i ∈ m.step.1.program, O i.operation := by
    intro m h
    rwa [m.step_keeps.2.1]
  cases a with
  | upload program =>
    rcases m.act_upload program with e | ⟨labels, -, e⟩ <;> rw [e]
    · exact h
    · exact fun i hi => ha i (by simpa using hi)
  | append i =>
    rcases m.act_append i with e | ⟨labels, -, e⟩ <;> rw [e]
    · exact h
    · intro j hj
      rcases Array.mem_push.1 hj with hj | rfl
      · exact h j hj
      · exact ha
  | step => exact hkeeps m h
  | run => exact runFor_induction hkeeps _ h
  | reset => exact fun i hi => absurd hi (by simp [act, reset])
  | restart | setMaxCycles n => exact h
  | write w =>
    obtain ⟨data, -, e⟩ := m.act_write w
    rw [e]
    exact h

end

/-! ## Machines that are alike -/

/-- The machines have datapaths in the relation `S`, and everything else that decides what they do
is the same. -/
structure Alike (S : Datapath β → Datapath γ → Prop) (m : Machine β) (m' : Machine γ) : Prop where
  config : m.config = m'.config
  program : m.program = m'.program
  labels : m.labels = m'.labels
  data : S m.data m'.data
  pc : m.pc = m'.pc
  cycle : m.cycle = m'.cycle
  halted : m.halted = m'.halted

namespace Alike

variable {S : Datapath β → Datapath γ → Prop} {O : Operation → Prop}
  {m : Machine β} {m' : Machine γ}

theorem mono {T : Datapath β → Datapath γ → Prop} (h : Alike S m m') (hST : ∀ s t, S s t → T s t) :
    Alike T m m' :=
  { h with data := hST _ _ h.data }

theorem check_eq (h : Alike S m m') (program : List Instruction) :
    m.check program = m'.check program := by
  rw [check, check, h.config]

variable [Backend β] [Backend γ]

omit [Backend β] [Backend γ] in
/-- Both machines have executed an instruction and go on at the same place. -/
theorem advance (h : Alike S m m') {s : Datapath β} {t : Datapath γ} (hst : S s t) {x y : Bool}
    (hxy : x = y) {j k : Nat} (hjk : j = k) :
    Alike S { m with data := s, cycle := m.cycle + 1, pc := j, halted := x }
      { m' with data := t, cycle := m'.cycle + 1, pc := k, halted := y } where
  config := h.config
  program := h.program
  labels := h.labels
  data := hst
  pc := hjk
  cycle := congrArg (· + 1) h.cycle
  halted := hxy

/-- **Machines that are alike take the same step.** -/
theorem step (h : Alike S m m') (hS : Lockstep S O) (hO : ∀ i ∈ m.program, O i.operation) :
    ∃ n n' e, m.step = (n, e) ∧ m'.step = (n', e) ∧ m.stepCalls = m'.stepCalls ∧
      Alike S n n' := by
  have hprogram : m'.program[m'.pc]? = m.program[m.pc]? := by rw [h.program, h.pc]
  have hhalted : ∀ {x}, m.halted = x → m'.halted = x := fun hx => h.halted ▸ hx
  have hexecute : ∀ {i s r}, m.program[m.pc]? = some i → m.data.execute i.operation = (s, r) →
      ∃ t, m'.data.execute i.operation = (t, r) ∧ S s t := by
    intro i s r hi he
    obtain ⟨s', t, r', hs, ht, -, hst⟩ := hS.execute h.data (hO i (Array.mem_of_getElem? hi))
    cases he.symm.trans hs
    exact ⟨t, ht, hst⟩
  have hcalls : m.stepCalls = m'.stepCalls := by
    rw [stepCalls, stepCalls, stepNotes, stepNotes, hprogram, h.halted]
    cases hi : m.program[m.pc]? with
    | none => rfl
    | some i =>
      obtain ⟨-, -, -, -, -, hcalls, -⟩ := hS.execute h.data (hO i (Array.mem_of_getElem? hi))
      simp only [hcalls]
  -- both machines are at the same instruction, so one inversion settles what both do
  rcases hm : m.step with ⟨n, e⟩
  cases steps_of_step hm with
  | rest hh => exact ⟨m, m', none, rfl, (Steps.rest (hhalted hh)).step_eq, hcalls, h⟩
  | outside hh hi =>
    have hs := (Steps.outside (hhalted hh) (hprogram.trans hi)).step_eq
    rw [← h.pc, ← h.program] at hs
    exact ⟨m, m', _, rfl, hs, hcalls, h⟩
  | fault hh hi he =>
    obtain ⟨t, ht, hst⟩ := hexecute hi he
    have hs := (Steps.fault (hhalted hh) (hprogram.trans hi) ht).step_eq
    rw [← h.pc, ← h.cycle] at hs
    exact ⟨_, _, _, rfl, hs, hcalls, { h with data := hst, pc := rfl, cycle := rfl }⟩
  | next hh hi he =>
    obtain ⟨t, ht, hst⟩ := hexecute hi he
    have hs := (Steps.next (hhalted hh) (hprogram.trans hi) ht).step_eq
    exact ⟨_, _, _, rfl, hs, hcalls, h.advance hst h.halted (congrArg (· + 1) h.pc)⟩
  | stop hh hi he =>
    obtain ⟨t, ht, hst⟩ := hexecute hi he
    have hs := (Steps.stop (hhalted hh) (hprogram.trans hi) ht).step_eq
    exact ⟨_, _, _, rfl, hs, hcalls, h.advance hst rfl (congrArg (· + 1) h.pc)⟩
  | jump hh hi he hk =>
    obtain ⟨t, ht, hst⟩ := hexecute hi he
    have hs := (Steps.jump (hhalted hh) (hprogram.trans hi) ht (h.labels ▸ hk)).step_eq
    exact ⟨_, _, _, rfl, hs, hcalls, h.advance hst h.halted rfl⟩
  | lost hh hi he hk =>
    obtain ⟨t, ht, hst⟩ := hexecute hi he
    have hs := (Steps.lost (hhalted hh) (hprogram.trans hi) ht (h.labels ▸ hk)).step_eq
    rw [← h.pc] at hs
    exact ⟨_, _, _, rfl, hs, hcalls, h.advance hst h.halted rfl⟩

/-- Machines that are alike run in the same way. -/
theorem runFor (h : Alike S m m') (hS : Lockstep S O) (hO : ∀ i ∈ m.program, O i.operation)
    (k : Nat) : ∃ n n' r, Machine.runFor k m = (n, r) ∧ Machine.runFor k m' = (n', r) ∧
      runForCalls k m = runForCalls k m' ∧ Alike S n n' := by
  induction k generalizing m m' with
  | zero =>
    rw [Machine.runFor, Machine.runFor, h.halted, h.cycle]
    exact ⟨m, m', _, rfl, rfl, rfl, h⟩
  | succ k ih =>
    have hkeeps := m.step_keeps.2.1
    rw [Machine.runFor, Machine.runFor, runForCalls_succ, runForCalls_succ, h.halted, h.cycle]
    split
    · exact ⟨m, m', _, rfl, rfl, rfl, h⟩
    · obtain ⟨n, n', e, hn, hn', hcalls, hnext⟩ := h.step hS hO
      rw [hn] at hkeeps
      rw [hn, hn', hcalls]
      cases e with
      | some e => exact ⟨n, n', _, rfl, rfl, rfl, hnext⟩
      | none =>
        have hO' : ∀ i ∈ n.program, O i.operation := fun i hi => hO i (hkeeps ▸ hi)
        obtain ⟨l, l', r, hl, hl', hrest, hlast⟩ := ih hnext hO'
        exact ⟨l, l', r, hl, hl', congrArg _ hrest, hlast⟩

/-! ## Histories -/

omit [Backend β] [Backend γ] in
/-- Both machines start afresh with the same program. -/
theorem install (h : Alike S m m') (hS : ∀ {s t}, S s t → S s.restart.clear t.restart.clear)
    (program : Array Instruction) (labels : LabelTable) :
    Alike S { m.reset with program, labels } { m'.reset with program, labels } where
  config := h.config
  program := rfl
  labels := rfl
  data := hS h.data
  pc := congrArg Config.startAddress h.config
  cycle := rfl
  halted := rfl

theorem upload (h : Alike S m m') (hS : Lockstep S O) (program : List Instruction) :
    ∃ n n' r, Machine.upload program m = (n, r) ∧ Machine.upload program m' = (n', r) ∧
      Alike S n n' := by
  rw [upload_eq, upload_eq]
  refine Work.attempt_paired (.bind_eq (h.check_eq program) fun labels => .ok ?_) h
  exact h.install (fun hst => hS.clear (hS.restart hst)) program.toArray labels

omit [Backend β] [Backend γ] in
theorem append (h : Alike S m m') (i : Instruction) :
    ∃ n n' r, Machine.append i m = (n, r) ∧ Machine.append i m' = (n', r) ∧ Alike S n n' := by
  rw [append_eq, append_eq]
  refine Work.attempt_paired ?_ h
  rw [h.config, h.program, h.labels]
  split
  · exact .error _
  · split
    · exact .error _
    · exact .ok { h with config := rfl, program := rfl, labels := rfl }

theorem write (h : Alike S m m') (hS : Lockstep S O) (w : Datapath.Write) :
    ∃ n n' r, Machine.write w m = (n, r) ∧ Machine.write w m' = (n', r) ∧ Alike S n n' := by
  obtain ⟨s, t, r, hs, ht, hst⟩ := hS.write h.data w
  exact ⟨{ m with data := s }, { m' with data := t }, r, by rw [Machine.write, Work.part, hs],
    by rw [Machine.write, Work.part, ht], { h with data := hst }⟩

/-- **Machines that are alike answer in the same way, make the same calls and stay alike.** -/
theorem act (h : Alike S m m') (hS : Lockstep S O) (hO : ∀ i ∈ m.program, O i.operation)
    (a : Action) : m.answer a = m'.answer a ∧ m.callsOf a = m'.callsOf a ∧
      Alike S (m.act a) (m'.act a) := by
  cases a with
  | upload program =>
    obtain ⟨n, n', r, hn, hn', hnext⟩ := h.upload hS program
    rw [answer, answer, Machine.act, Machine.act, hn, hn']
    exact ⟨rfl, rfl, hnext⟩
  | append i =>
    obtain ⟨n, n', r, hn, hn', hnext⟩ := h.append i
    rw [answer, answer, Machine.act, Machine.act, hn, hn']
    exact ⟨rfl, rfl, hnext⟩
  | step =>
    obtain ⟨n, n', e, hn, hn', hcalls, hnext⟩ := h.step hS hO
    rw [answer, answer, Machine.act, Machine.act, hn, hn']
    exact ⟨rfl, hcalls, hnext⟩
  | run =>
    obtain ⟨n, n', r, hn, hn', hcalls, hlast⟩ := h.runFor hS hO (m.config.maxCycles - m.cycle)
    have hrun : m.run = (n, r) := hn
    have hrun' : m'.run = (n', r) := by rw [run, ← h.config, ← h.cycle, hn']
    have hcallsOf : m.callsOf .run = m'.callsOf .run := by
      rw [callsOf, callsOf, notesOf, notesOf, ← h.config, ← h.cycle]
      exact hcalls
    rw [answer, answer, Machine.act, Machine.act, hrun, hrun']
    exact ⟨rfl, hcallsOf, hlast⟩
  | restart =>
    exact ⟨rfl, rfl, { h with
      data := hS.restart h.data
      pc := congrArg Config.startAddress h.config
      cycle := rfl
      halted := rfl }⟩
  | reset => exact ⟨rfl, rfl, h.install (fun hst => hS.clear (hS.restart hst)) #[] .empty⟩
  | setMaxCycles n =>
    exact ⟨rfl, rfl, { h with config := congrArg (fun c => { c with maxCycles := n }) h.config }⟩
  | write w =>
    obtain ⟨n, n', r, hn, hn', hnext⟩ := h.write hS w
    rw [answer, answer, Machine.act, Machine.act, hn, hn']
    exact ⟨rfl, rfl, hnext⟩

/-- **Machines that are alike go through every history in the same way.** -/
theorem acts (h : Alike S m m') (hS : Lockstep S O) (hO : ∀ i ∈ m.program, O i.operation)
    {history : List Action} (ha : ∀ a ∈ history, a.Installs O) :
    Alike S (m.acts history) (m'.acts history) ∧ m.answers history = m'.answers history ∧
      m.handed history = m'.handed history := by
  induction history generalizing m m' with
  | nil => exact ⟨h, rfl, rfl⟩
  | cons a history ih =>
    obtain ⟨hanswer, hcalls, hact⟩ := h.act hS hO a
    have hprogram := forall_program_act hO (ha a (by simp))
    obtain ⟨hacts, hanswers, hhanded⟩ := ih hact hprogram fun b hb => ha b (by simp [hb])
    refine ⟨hacts, ?_, ?_⟩
    · rw [answers, answers, hanswer, hanswers]
    · rw [handed_cons, handed_cons, hcalls, hhanded]

end Alike

end Machine

end Eqasm
