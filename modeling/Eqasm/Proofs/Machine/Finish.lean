import Eqasm.Proofs.Machine.History

/-!
# Finished runs

A run that no bound cuts short goes on until the machine halts or a step fails
(`Machine.Finishes`), and asks the backend for calls on the way. Such a run is what enough cycles
lead to (`Machine.finishes_iff`).
-/

namespace Eqasm

/-- How a program ends. -/
inductive Ending where
  | halted
  /-- An instruction could not be carried out. -/
  | fault (cause : Fault)
  /-- The program counter has left the program. -/
  | outside
  deriving DecidableEq, Repr

variable {β : Type}

/-- The error that a machine has which ends like this. -/
def Ending.error? (m : Machine β) : Ending → Option ExecError
  | .halted => none
  | .fault cause => some (.fault m.pc m.cycle cause)
  | .outside => some (.pcOutOfRange m.pc m.program.size)

/-- The result of a run that ends like this. -/
def Ending.result (m : Machine β) (e : Ending) : Except ExecError Outcome :=
  match e.error? m with
  | none => .ok (.halted m.cycle)
  | some error => .error error

theorem Ending.error?_eq_none {m : Machine β} {e : Ending} : e.error? m = none ↔ e = .halted := by
  cases e <;> simp [error?]

/-- A machine has different errors for different endings. -/
theorem Ending.error?_inj {m : Machine β} {e e' : Ending} (h : e.error? m = e'.error? m) :
    e = e' := by
  cases e <;> cases e' <;> simp_all [error?]

theorem Ending.result_eq_error {m : Machine β} {e : Ending} {error : ExecError} :
    e.result m = .error error ↔ e.error? m = some error := by
  unfold result
  cases e.error? m <;> simp

/-- An ending without an error is a halt. -/
theorem Ending.result_eq_ok {m : Machine β} {e : Ending} {o : Outcome} :
    e.result m = .ok o ↔ e = .halted ∧ o = .halted m.cycle := by
  unfold result
  cases e <;> simp [error?, eq_comm]

namespace Machine

variable [Backend β]

/-- The run of a machine asks for these calls and ends at the other machine, in this way. -/
inductive Finishes : Machine β → List Call → Machine β → Ending → Prop
  | halted {m : Machine β} (hh : m.halted = true) : Finishes m [] m .halted
  | failed {m m' : Machine β} {e : Ending} (hh : m.halted = false) (he : e ≠ .halted)
    (hs : m.step = (m', e.error? m')) : Finishes m m.stepCalls m' e
  | step {m m' last : Machine β} {calls : List Call} {e : Ending} (hh : m.halted = false)
    (hs : m.step = (m', none)) (h : Finishes m' calls last e) :
    Finishes m (m.stepCalls ++ calls) last e

/-- What enough cycles lead to, if no label is missing, is where the run ends. -/
theorem finishes_of_runFor {n : Nat} {m m' : Machine β} {e : Ending}
    (h : runFor n m = (m', e.result m')) : m.Finishes (runForCalls n m) m' e := by
  induction n generalizing m with
  | zero =>
    rw [runFor] at h
    obtain ⟨rfl, hr⟩ := Prod.mk.inj h
    obtain ⟨rfl, ho⟩ := Ending.result_eq_ok.1 hr.symm
    by_cases hh : m.halted = true
    · exact .halted hh
    · simp [hh] at ho
  | succ n ih =>
    rw [runFor] at h
    rw [runForCalls_succ]
    by_cases hh : m.halted = true
    · rw [if_pos hh] at h ⊢
      obtain ⟨rfl, hr⟩ := Prod.mk.inj h
      obtain ⟨rfl, -⟩ := Ending.result_eq_ok.1 hr.symm
      exact .halted hh
    · rw [if_neg hh] at h ⊢
      rw [Bool.not_eq_true] at hh
      rcases hs : m.step with ⟨next, _ | error⟩ <;> rw [hs] at h
      · exact .step hh hs (ih h)
      · obtain ⟨rfl, hr⟩ := Prod.mk.inj h
        have herror := Ending.result_eq_error.1 hr.symm
        rw [List.append_nil]
        refine .failed hh ?_ (hs.trans (by rw [herror]))
        rintro rfl
        cases herror

theorem Finishes.exists_runFor {m m' : Machine β} {calls : List Call} {e : Ending}
    (h : m.Finishes calls m' e) :
    ∃ n, runFor n m = (m', e.result m') ∧ runForCalls n m = calls := by
  induction h with
  | @halted m hh => exact ⟨0, by simp [runFor, hh, Ending.result, Ending.error?], rfl⟩
  | failed hh he hs =>
    obtain ⟨error, herror⟩ := Option.ne_none_iff_exists'.1 (mt Ending.error?_eq_none.1 he)
    rw [herror] at hs
    exact ⟨1, by simp [runFor, hh, hs, Ending.result_eq_error.2 herror],
      by simp [runForCalls_succ, hh, hs]⟩
  | step hh hs _ ih =>
    obtain ⟨n, hrun, hcalls⟩ := ih
    exact ⟨n + 1, by simp [runFor, hh, hs, hrun], by simp [runForCalls_succ, hh, hs, hcalls]⟩

/-- **A run ends where enough cycles lead.** -/
theorem finishes_iff {m m' : Machine β} {calls : List Call} {e : Ending} :
    m.Finishes calls m' e ↔ ∃ n, runFor n m = (m', e.result m') ∧ runForCalls n m = calls := by
  constructor
  · exact Finishes.exists_runFor
  · rintro ⟨n, hrun, rfl⟩
    exact finishes_of_runFor hrun

end Machine

end Eqasm
