import Eqasm.Backend.Ideal
import Eqasm.Proofs.Machine.History
import Eqasm.Proofs.TargetRegisters.Sound

/-!
# Failures

An instruction that fails has no effect but that the cycle counter goes up, and it fails again when
it is executed again (`Machine.Fruitless`). The exception is a bundle whose target registers can all
be read: it goes as far as the call that goes wrong (`Datapath.exists_of_execute_error`). Both sides
are in `Machine.effect_of_failure`.
-/

namespace Eqasm

/-! ## Bundles -/

/-- The target register of a quantum operation is there and was loaded. -/
def MicroOp.Targeted (t : TargetRegisters) (o : MicroOp) : Prop :=
  match o.target with
  | .none => True
  | .single i => ∃ qubits, t.singles[i]? = some (some qubits)
  | .pair i => ∃ pairs, t.pairs[i]? = some (some pairs)

/-- The operation is a bundle whose target registers are all there and were loaded. -/
def Operation.Targeted (t : TargetRegisters) (o : Operation) : Prop :=
  ∃ pi ops, o = .bundle pi ops ∧ ∀ u ∈ ops, u.Targeted t

theorem MicroOp.exists_calls {t : TargetRegisters} {o : MicroOp} :
    (∃ calls, o.calls t = .ok calls) ↔ o.Targeted t := by
  obtain ⟨name, target⟩ := o
  cases target with
  | none => exact ⟨fun _ => trivial, fun _ => ⟨[], rfl⟩⟩
  | single i =>
    constructor
    · rintro ⟨calls, h⟩
      obtain ⟨qubits, hqubits, -⟩ := except_bind_eq_ok.1 h
      exact ⟨qubits, TargetRegisters.entries_eq_ok.1 hqubits⟩
    · rintro ⟨qubits, h⟩
      have hread : t.readSingle i = .ok qubits := TargetRegisters.entries_eq_ok.2 h
      exact ⟨_, except_bind_eq_ok.2 ⟨qubits, hread, rfl⟩⟩
  | pair i =>
    constructor
    · rintro ⟨calls, h⟩
      obtain ⟨pairs, hpairs, -⟩ := except_bind_eq_ok.1 h
      exact ⟨pairs, TargetRegisters.entries_eq_ok.1 hpairs⟩
    · rintro ⟨pairs, h⟩
      have hread : t.readPair i = .ok pairs := TargetRegisters.entries_eq_ok.2 h
      exact ⟨_, except_bind_eq_ok.2 ⟨pairs, hread, rfl⟩⟩

/-- The calls of a bundle are known if all its target registers can be read. -/
theorem exists_resolve {t : TargetRegisters} {ops : List MicroOp} :
    (∃ calls, resolve t ops = .ok calls) ↔ ∀ o ∈ ops, o.Targeted t := by
  induction ops with
  | nil => exact ⟨fun _ => by simp, fun _ => ⟨[], rfl⟩⟩
  | cons o ops ih =>
    rw [List.forall_mem_cons, ← ih, ← MicroOp.exists_calls]
    constructor
    · rintro ⟨calls, h⟩
      obtain ⟨xs, hxs, h⟩ := except_bind_eq_ok.1 h
      obtain ⟨ys, hys, -⟩ := except_bind_eq_ok.1 h
      exact ⟨⟨xs, hxs⟩, ys, hys⟩
    · rintro ⟨⟨xs, hxs⟩, ys, hys⟩
      exact ⟨_, except_bind_eq_ok.2 ⟨xs, hxs, except_bind_eq_ok.2 ⟨ys, hys, rfl⟩⟩⟩

namespace Datapath

variable {β : Type} [Backend β] {s t : Datapath β} {o : Operation} {cause : Fault}

/-- Any other operation than a bundle whose target registers can be read makes no call, and has no
effect if it fails. -/
theorem eq_of_execute_error (ho : ¬ o.Targeted s.targets)
    (h : s.execute o = (t, .error cause)) : t = s ∧ s.calls o = [] := by
  cases executes_of_execute h with
  | failed hne => exact ⟨rfl, calls_eq_nil hne⟩
  | unresolved hresolve => exact ⟨rfl, by simp only [calls, hresolve]⟩
  | @interrupted pi ops calls _ _ hresolve =>
    exact absurd ⟨pi, ops, rfl, exists_resolve.1 ⟨calls, hresolve⟩⟩ ho

/-- A bundle whose target registers can be read fails at a call, behind the effect of the calls
before it. -/
theorem exists_of_execute_error (ho : o.Targeted s.targets)
    (h : s.execute o = (t, .error cause)) :
    ∃ pi ops before c after u, o = .bundle pi ops ∧
      resolve s.targets ops = .ok (before ++ c :: after) ∧ s.issue before = (u, .ok ()) ∧
      u.perform c = (t, .error cause) ∧ Touches before s t := by
  obtain ⟨pi, ops, rfl, hops⟩ := ho
  obtain ⟨calls, hcalls⟩ := exists_resolve.2 hops
  cases executes_of_execute h with
  | failed hne => exact absurd rfl (hne pi ops)
  | unresolved hresolve => cases hcalls.symm.trans hresolve
  | interrupted hresolve hissue =>
    obtain ⟨before, c, after, u, rfl, hbefore, hc⟩ := exists_of_issue_error hissue
    refine ⟨pi, ops, before, c, after, u, rfl, hresolve, hbefore, hc, ?_⟩
    obtain ⟨b, rfl⟩ := perform_error hc
    have htouches := (touches_of_issue hbefore).trans (.backend [] u b)
    rwa [List.append_nil] at htouches

end Datapath

/-! ## Machines -/

/-- The same error one cycle later. -/
def ExecError.later : ExecError → ExecError
  | .fault pc cycle cause => .fault pc (cycle + 1) cause
  | .pcOutOfRange pc length => .pcOutOfRange pc length
  | .undefinedLabel pc label => .undefinedLabel pc label

namespace Machine

variable {β : Type}

/-- The same machine one cycle later. -/
def later (m : Machine β) : Machine β :=
  { m with cycle := m.cycle + 1 }

variable [Backend β]

/-- The cycle counter does not decide what a step does. -/
theorem step_later (m : Machine β) : m.later.step = (m.step.1.later, m.step.2.map .later) := by
  by_cases hh : m.halted = true
  · simp [step, later, hh]
  · cases hi : m.program[m.pc]? with
    | none => simp [step, later, hh, hi, ExecError.later]
    | some i =>
      rcases he : m.data.execute i.operation with ⟨data, cause | flow⟩
      · simp [step, later, hh, hi, he, ExecError.later]
      · cases flow with
        | next | stop => simp [step, later, hh, hi, he]
        | jump label =>
          cases hl : m.labels.find? label with
          | none => simp [step, later, hh, hi, he, hl, ExecError.later]
          | some k => simp [step, later, hh, hi, he, hl]

/-- The step from `m` to `m'` ended with the error `e` and had no effect but that the cycle counter
went up. It made no call, and the next step has as little effect and ends with the same error. -/
structure Fruitless (m m' : Machine β) (e : ExecError) : Prop where
  unchanged : m' = m.later
  calls : m.stepCalls = []
  repeats : m'.step = (m.later.later, some e.later)

theorem fruitless_of_step {m m' : Machine β} {e : ExecError} {i : Instruction}
    (h : m.step = (m', some e)) (hi : m.program[m.pc]? = some i)
    (hcalls : m.data.calls i.operation = []) (hm : m' = m.later) : m.Fruitless m' e := by
  refine ⟨hm, ?_, ?_⟩
  · rw [stepCalls, stepNotes]
    split
    · rfl
    · simpa only [hi] using hcalls
  · rw [hm, step_later, h, hm]
    rfl

/-- **An instruction that fails has no effect.** Behind the end of the program a step changes
nothing. A branch to a label that is not defined, an operation other than a bundle that fails, and a
bundle with a target register that is not there or was not loaded change nothing but the cycle
counter, make no call, and fail again. Any other bundle that fails has made the calls up to the one
that went wrong, and changed nothing but the backend and the results of the qubits that were
measured before. -/
theorem effect_of_failure {m m' : Machine β} {e : ExecError} (h : m.step = (m', some e)) :
    match e with
    | .pcOutOfRange pc _ => pc = m.pc ∧ m' = m ∧ m.stepCalls = []
    | .undefinedLabel pc _ => pc = m.pc ∧ m.Fruitless m' e
    | .fault pc cycle cause =>
      pc = m.pc ∧ cycle = m.cycle + 1 ∧ ∃ i, m.program[m.pc]? = some i ∧
        (¬ i.operation.Targeted m.data.targets → m.Fruitless m' e) ∧
        (i.operation.Targeted m.data.targets → ∃ pi ops before c after u,
          i.operation = .bundle pi ops ∧
          resolve m.data.targets ops = .ok (before ++ c :: after) ∧
          m.data.issue before = (u, .ok ()) ∧ u.perform c = (m'.data, .error cause) ∧
          m' = { m.later with
            data := { m.data with backend := m'.data.backend, results := m'.data.results } } ∧
          m'.data.results.size = m.data.results.size ∧
          ∀ q, .measure q ∉ before → m'.data.results[q]? = m.data.results[q]?) := by
  cases steps_of_step h with
  | outside _ hi => exact ⟨rfl, rfl, by simp [stepCalls, stepNotes, hi]⟩
  | @fault i data cause _ hi he =>
    refine ⟨rfl, rfl, i, hi, fun ho => ?_, fun ho => ?_⟩
    · obtain ⟨rfl, hcalls⟩ := Datapath.eq_of_execute_error ho he
      exact fruitless_of_step h hi hcalls rfl
    · obtain ⟨pi, ops, before, c, after, u, hop, hcalls, hbefore, hc, htouches⟩ :=
        Datapath.exists_of_execute_error ho he
      refine ⟨pi, ops, before, c, after, u, hop, hcalls, hbefore, hc, ?_, htouches.results_size,
        htouches.results⟩
      rw [← htouches.others]
      rfl
  | @lost i data label _ hi he hk =>
    obtain ⟨flag, hop, -⟩ := Operation.flow_eq_jump.1 (Datapath.flow_of_execute he).symm
    have hcalls : m.data.calls i.operation = [] := by
      rw [hop]
      rfl
    rw [hop, Datapath.execute_br] at he
    obtain ⟨rfl, -⟩ := Prod.mk.inj he
    exact ⟨rfl, fruitless_of_step h hi hcalls rfl⟩

/-- A division by zero. -/
theorem effect_of_failure_of_division :
    ∃ m m' : Machine Ideal, m.step = (m', some (.fault 0 1 .divideByZero)) ∧
      m.Fruitless m' (.fault 0 1 .divideByZero) := by
  have hmake : ∃ m₀ : Machine Ideal,
      make { generalCount := 1, floatCount := 1, qubits := 1 } ⟨⟩ = .ok m₀ := ⟨_, rfl⟩
  obtain ⟨m₀, hmake⟩ := hmake
  have hstep : ∃ m', (m₀.acts [.append ⟨[], .alu .div 0 0 0⟩]).step =
      (m', some (.fault 0 1 .divideByZero)) := by
    cases hmake
    exact ⟨_, rfl⟩
  obtain ⟨m', hstep⟩ := hstep
  obtain ⟨-, -, i, hi, hfruitless, -⟩ := effect_of_failure hstep
  refine ⟨_, m', hstep, hfruitless ?_⟩
  rintro ⟨pi, ops, hop, -⟩
  cases hmake
  cases hi
  cases hop

end Machine

end Eqasm
