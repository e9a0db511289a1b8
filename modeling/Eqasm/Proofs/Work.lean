import Eqasm.Proofs.Except
import Eqasm.Work

/-!
# Work in steps

When one piece of work behind another one succeeds, and when work in steps makes one change or none:
to look things up and then attempt a change is to attempt one change (`Work.look_bind_attempt`).
-/

namespace Eqasm.Work

variable {σ τ ε α γ : Type}

/-- Two pieces of work succeed if the second one succeeds behind the first one. -/
theorem bind_eq_ok {w : Work σ ε α} {f : α → Work σ ε γ} {s u : σ} {c : γ} :
    (w >>= f) s = (u, .ok c) ↔ ∃ a t, w s = (t, .ok a) ∧ f a t = (u, .ok c) := by
  rcases hw : w s with ⟨t, e | a⟩
  · rw [bind_of_error hw]
    simp
  · rw [bind_of_ok hw]
    constructor
    · exact fun h => ⟨a, t, rfl, h⟩
    · rintro ⟨_, _, ⟨⟩, h⟩
      exact h

@[simp] theorem exec_eq_ok {w : Work σ ε Unit} {s t : σ} :
    w.exec s = .ok t ↔ w s = (t, .ok ()) := by
  rw [exec]
  split <;> simp_all

theorem exec_eq_error {w : Work σ ε Unit} {s : σ} {e : ε} :
    w.exec s = .error e ↔ (w s).2 = .error e := by
  rw [exec]
  split <;> simp_all

/-! ## Attempts -/

theorem attempt_eq_ok {f : σ → Except ε σ} {s t : σ} :
    attempt f s = (t, .ok ()) ↔ f s = .ok t := by
  rw [attempt]
  split <;> simp_all

/-- An attempt that fails changes nothing. -/
theorem attempt_eq_error {f : σ → Except ε σ} {s t : σ} {e : ε} :
    attempt f s = (t, .error e) ↔ t = s ∧ f s = .error e := by
  rw [attempt]
  split <;> simp_all [eq_comm]

theorem exec_attempt (f : σ → Except ε σ) : (attempt f).exec = f := by
  funext s
  rw [exec, attempt]
  split
  · split at * <;> simp_all
  · split at * <;> simp_all

/-- To look something up and then attempt a change is to attempt one change. -/
theorem look_bind_attempt (f : σ → Except ε α) (g : α → σ → Except ε σ) :
    (look f >>= fun a => attempt (g a)) = attempt fun s => f s >>= fun a => g a s := by
  funext s
  cases hf : f s with
  | error e =>
    have hlook : look f s = (s, .error e) := congrArg (Prod.mk s) hf
    rw [bind_of_error hlook, attempt, hf]
    rfl
  | ok a =>
    have hlook : look f s = (s, .ok a) := congrArg (Prod.mk s) hf
    rw [bind_of_ok hlook, attempt, attempt, hf]
    rfl

theorem look_bind_pure (f : σ → Except ε α) :
    (look f >>= fun _ => pure ()) = attempt fun s => f s >>= fun _ => pure s :=
  look_bind_attempt f fun _ s => .ok s

theorem look_bind_change (f : σ → Except ε α) (g : α → σ → σ) :
    (look f >>= fun a => change (g a)) = attempt fun s => f s >>= fun a => pure (g a s) :=
  look_bind_attempt f fun a s => .ok (g a s)

/-- Two changes are one. -/
theorem change_bind_change (f g : σ → σ) :
    (change (ε := ε) f >>= fun _ => change g) = change fun s => g (f s) :=
  rfl

/-- An attempt on a part of a state is an attempt on the state. -/
theorem part_attempt {get : σ → τ} {set : σ → τ → σ} (hset : ∀ s, set s (get s) = s)
    (f : τ → Except ε τ) :
    (attempt f).part get set = attempt fun s => f (get s) >>= fun t => pure (set s t) := by
  funext s
  cases hf : f (get s) with
  | error e => simp [part, attempt, hf, hset, bind, Except.bind]
  | ok t => simp [part, attempt, hf, bind, Except.bind, pure, Except.pure]

/-- What the attempted changes keep in relation, the attempts keep in relation. -/
theorem attempt_paired {ρ : σ → τ → Prop} {f : σ → Except ε σ} {g : τ → Except ε τ} {s : σ} {t : τ}
    (h : Paired ρ (f s) (g t)) (hst : ρ s t) :
    ∃ s' t' r, attempt f s = (s', r) ∧ attempt g t = (t', r) ∧ ρ s' t' := by
  rcases paired_iff.1 h with ⟨s', t', hs, ht, hst'⟩ | ⟨e, hs, ht⟩
  · exact ⟨s', t', .ok (), attempt_eq_ok.2 hs, attempt_eq_ok.2 ht, hst'⟩
  · exact ⟨s, t, .error e, attempt_eq_error.2 ⟨rfl, hs⟩, attempt_eq_error.2 ⟨rfl, ht⟩, hst⟩

end Eqasm.Work
