import Eqasm.Backend.Ideal
import Eqasm.Proofs.Machine.History

/-!
# Runs

A run goes on step by step (`Machine.Advances`) up to the first machine where it has to end
(`Machine.Ends`): one that has halted, one whose cycle counter has reached the bound, or one whose
step fails. The steps before this machine are the same under every higher bound. So a run can be
split at any bound (`Machine.run_split`).
-/

namespace Eqasm.Machine

variable {β : Type} [Backend β]

/-! ## Steps on the way -/

/-- The `n` steps from one machine to another go well, and each of them starts at a machine that has
not halted and whose cycle counter is below the bound. -/
inductive Advances (bound : Nat) : Nat → Machine β → Machine β → Prop
  | refl (m : Machine β) : Advances bound 0 m m
  | step {n : Nat} {m m' last : Machine β} (hh : m.halted = false) (hc : m.cycle < bound)
    (hs : m.step = (m', none)) (h : Advances bound n m' last) : Advances bound (n + 1) m last

/-- A run under the bound ends at this machine, and what it ends with. -/
inductive Ends (bound : Nat) (m : Machine β) : Machine β → Except ExecError Outcome → Prop
  | halted (hh : m.halted = true) : Ends bound m m (.ok (.halted m.cycle))
  | limit (hh : m.halted = false) (hc : bound ≤ m.cycle) :
    Ends bound m m (.ok (.cycleLimit m.cycle))
  | failed {m' : Machine β} {e : ExecError} (hh : m.halted = false) (hc : m.cycle < bound)
    (hs : m.step = (m', some e)) : Ends bound m m' (.error e)

/-- A step that goes well counts one cycle. -/
theorem cycle_of_step {m m' : Machine β} (hh : m.halted = false) (hs : m.step = (m', none)) :
    m'.cycle = m.cycle + 1 := by
  cases steps_of_step hs with
  | rest h => simp [hh] at h
  | next | stop | jump => rfl

/-- A step that fails counts one cycle at most, and does not halt the machine. -/
theorem cycle_of_step_error {m m' : Machine β} {e : ExecError} (hs : m.step = (m', some e)) :
    m'.cycle ≤ m.cycle + 1 ∧ m'.halted = false := by
  cases steps_of_step hs with
  | outside hh => exact ⟨Nat.le_succ _, hh⟩
  | fault hh | lost hh => exact ⟨Nat.le_refl _, hh⟩

theorem Advances.cycle_eq {bound n : Nat} {m last : Machine β} (h : Advances bound n m last) :
    last.cycle = m.cycle + n := by
  induction h with
  | refl => rfl
  | step hh _ hs _ ih =>
    rw [ih, cycle_of_step hh hs]
    omega

theorem Advances.mono {bound bound' n : Nat} (hb : bound ≤ bound') {m last : Machine β}
    (h : Advances bound n m last) : Advances bound' n m last := by
  induction h with
  | refl m => exact .refl m
  | step hh hc hs _ ih => exact .step hh (Nat.lt_of_lt_of_le hc hb) hs ih

/-- The steps on the way are a history. -/
theorem Advances.acts_eq {bound n : Nat} {m last : Machine β} (h : Advances bound n m last) :
    m.acts (.replicate n .step) = last := by
  induction h with
  | refl => rfl
  | step _ _ hs _ ih => rw [List.replicate_succ, acts_cons, act, hs, ih]

/-- The steps on the way leave the cycle counter below the bound, if it has not passed it before. -/
theorem Advances.cycle_le {bound n : Nat} {m last : Machine β} (h : Advances bound n m last) :
    last.cycle ≤ max bound m.cycle := by
  induction h with
  | refl => exact Nat.le_max_right _ _
  | step hh hc hs _ ih =>
    have := cycle_of_step hh hs
    omega

/-! ## Runs as steps -/

/-- A run is as long as the number of cycles allows, and may start at any machine on its way. -/
theorem Advances.runFor_eq {bound n : Nat} {m last : Machine β} (h : Advances bound n m last) :
    runFor (bound - m.cycle) m = runFor (bound - last.cycle) last := by
  induction h with
  | refl => rfl
  | @step n m m' last hh hc hs _ ih =>
    have hfuel : bound - m.cycle = bound - m'.cycle + 1 := by
      rw [cycle_of_step hh hs]
      omega
    rw [hfuel, runFor, hs, ← ih]
    simp [hh]

theorem Ends.runFor_eq {bound : Nat} {m m' : Machine β} {r : Except ExecError Outcome}
    (h : Ends bound m m' r) : runFor (bound - m.cycle) m = (m', r) := by
  cases h with
  | halted hh => cases bound - m.cycle <;> simp [runFor, hh]
  | limit hh hc => simp [Nat.sub_eq_zero_of_le hc, runFor, hh]
  | failed hh hc hs =>
    obtain ⟨k, hk⟩ : ∃ k, bound - m.cycle = k + 1 := ⟨bound - m.cycle - 1, by omega⟩
    rw [hk, runFor, hs]
    simp [hh]

/-- **A run takes steps up to the first machine where it has to end.** -/
theorem exists_ends (bound : Nat) (m : Machine β) :
    ∃ n last m' r, Advances bound n m last ∧ Ends bound last m' r := by
  -- the induction is on the cycles that are left
  induction hk : bound - m.cycle generalizing m with
  | zero =>
    by_cases hh : m.halted = true
    · exact ⟨0, m, m, _, .refl m, .halted hh⟩
    · exact ⟨0, m, m, _, .refl m, .limit (by simpa using hh) (by omega)⟩
  | succ k ih =>
    by_cases hh : m.halted = true
    · exact ⟨0, m, m, _, .refl m, .halted hh⟩
    · rw [Bool.not_eq_true] at hh
      have hc : m.cycle < bound := by omega
      rcases hs : m.step with ⟨next, _ | e⟩
      · have hnext : bound - next.cycle = k := by
          rw [cycle_of_step hh hs]
          omega
        obtain ⟨n, last, m', r, hadvances, hends⟩ := ih next hnext
        exact ⟨n + 1, last, m', r, .step hh hc hs hadvances, hends⟩
      · exact ⟨0, m, next, _, .refl m, .failed hh hc hs⟩

/-- Where a run ends, and with what. -/
theorem exists_of_run {m m' : Machine β} {r : Except ExecError Outcome} (h : m.run = (m', r)) :
    ∃ n last, Advances m.config.maxCycles n m last ∧ Ends m.config.maxCycles last m' r := by
  obtain ⟨n, last, m'', r', hadvances, hends⟩ := exists_ends m.config.maxCycles m
  rw [run, hadvances.runFor_eq, hends.runFor_eq] at h
  cases h
  exact ⟨n, last, hadvances, hends⟩

/-! ## Bounds -/

/-- The bound of runs does not decide what a step does. -/
theorem step_setMaxCycles (m : Machine β) (bound : Nat) :
    (m.setMaxCycles bound).step = (m.step.1.setMaxCycles bound, m.step.2) := by
  by_cases hh : m.halted = true
  · simp [step, setMaxCycles, hh]
  · cases hi : m.program[m.pc]? with
    | none => simp [step, setMaxCycles, hh, hi]
    | some i =>
      rcases he : m.data.execute i.operation with ⟨data, cause | flow⟩
      · simp [step, setMaxCycles, hh, hi, he]
      · cases flow with
        | next | stop => simp [step, setMaxCycles, hh, hi, he]
        | jump label =>
          cases hl : m.labels.find? label <;> simp [step, setMaxCycles, hh, hi, he, hl]

theorem step_setMaxCycles_of_eq {m m' : Machine β} {e : Option ExecError} (h : m.step = (m', e))
    (bound : Nat) : (m.setMaxCycles bound).step = (m'.setMaxCycles bound, e) := by
  rw [step_setMaxCycles, h]

theorem Advances.setMaxCycles {bound n : Nat} {m last : Machine β} (h : Advances bound n m last)
    (b : Nat) : Advances bound n (m.setMaxCycles b) (last.setMaxCycles b) := by
  induction h with
  | refl m => exact .refl _
  | step hh hc hs _ ih => exact .step hh hc (step_setMaxCycles_of_eq hs b) ih

/-- **Runs can be split.** A run under a bound takes the steps up to the first machine that has
halted, has reached the bound or fails, one cycle for each, and so leaves the cycle counter within
the bound if it was. It ends with `halted` exactly if the machine has halted, and the cycles that it
reports are those of the counter. If it does not fail, a second run under a higher bound leads to
what one run under the higher bound leads to; if it fails, that run fails in the same way. -/
theorem run_split (m : Machine β) {bound higher : Nat} (hb : bound ≤ higher) {m' : Machine β}
    {r : Except ExecError Outcome} (h : (m.setMaxCycles bound).run = (m', r)) :
    (∃ n last, Advances bound n (m.setMaxCycles bound) last ∧ last.cycle = m.cycle + n ∧
      Ends bound last m' r) ∧
    m'.cycle ≤ max bound m.cycle ∧
    (r = .ok (.halted m'.cycle) ↔ m'.halted = true) ∧
    (∀ o, r = .ok o → o = .halted m'.cycle ∨ o = .cycleLimit m'.cycle) ∧
    (∀ o, r = .ok o → (m'.setMaxCycles higher).run = (m.setMaxCycles higher).run) ∧
    ∀ e, r = .error e → (m.setMaxCycles higher).run = (m'.setMaxCycles higher, .error e) := by
  obtain ⟨n, last, hadvances, hends⟩ : ∃ n last,
      Advances bound n (m.setMaxCycles bound) last ∧ Ends bound last m' r := exists_of_run h
  have hcycle : last.cycle ≤ max bound m.cycle := hadvances.cycle_le
  have hsteps : (m.setMaxCycles higher).run =
      runFor (higher - last.cycle) (last.setMaxCycles higher) :=
    ((hadvances.mono hb).setMaxCycles higher).runFor_eq
  refine ⟨⟨n, last, hadvances, hadvances.cycle_eq, hends⟩, ?_⟩
  cases hends with
  | halted hh =>
    exact ⟨hcycle, by simp [hh], fun o e => .inl (Except.ok.inj e).symm, fun o _ => hsteps.symm,
      fun e he => nomatch he⟩
  | limit hh hc =>
    exact ⟨hcycle, by simp [hh], fun o e => .inr (Except.ok.inj e).symm, fun o _ => hsteps.symm,
      fun e he => nomatch he⟩
  | failed hh hc hs =>
    obtain ⟨hle, hhalted⟩ := cycle_of_step_error hs
    have hfails := step_setMaxCycles_of_eq hs higher
    have hends : Ends higher (last.setMaxCycles higher) (m'.setMaxCycles higher) (.error _) :=
      .failed hh (Nat.lt_of_lt_of_le hc hb) hfails
    refine ⟨by omega, by simp [hhalted], fun o e => (nomatch e), fun o e => (nomatch e), ?_⟩
    rintro e ⟨⟩
    exact hsteps.trans hends.runFor_eq

/-- A loop that is run up to cycle 2 and then up to cycle 5. -/
theorem run_split_of_loop :
    ∃ m m' : Machine Ideal, (m.setMaxCycles 2).run = (m', .ok (.cycleLimit 2)) ∧
      (m'.setMaxCycles 5).run = (m.setMaxCycles 5).run ∧
      (m.setMaxCycles 5).run.2 = .ok (.cycleLimit 5) := by
  obtain ⟨m₀, hmake⟩ : ∃ m₀ : Machine Ideal,
      make { generalCount := 1, floatCount := 1, qubits := 1 } ⟨⟩ = .ok m₀ := ⟨_, rfl⟩
  have hrun : ∃ m', ((m₀.acts [.append ⟨["loop"], .br .always "loop"⟩]).setMaxCycles 2).run =
      (m', .ok (.cycleLimit 2)) := by
    cases hmake
    exact ⟨_, rfl⟩
  obtain ⟨m', hrun⟩ := hrun
  obtain ⟨-, -, -, -, hsplit, -⟩ := run_split _ (by decide : 2 ≤ 5) hrun
  refine ⟨_, m', hrun, hsplit _ rfl, ?_⟩
  cases hmake
  rfl

end Eqasm.Machine
