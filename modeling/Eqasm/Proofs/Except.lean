/-!
# Computations that can fail

When computations in a row, over a list or gathered in a list succeed, and what they give or fail
with (`Gives`). Two computations can be compared by what they give (`Paired`).
-/

namespace Eqasm

variable {ε α β γ δ : Type}

/-- What the first of two computations in a row gives is passed on to the second. -/
theorem except_bind_eq_ok {x : Except ε α} {f : α → Except ε β} {b : β} :
    (x >>= f) = .ok b ↔ ∃ a, x = .ok a ∧ f a = .ok b := by
  cases x with
  | error e => simp [bind, Except.bind]
  | ok a => simp [bind, Except.bind]

/-- A check of all entries succeeds if each check does. -/
theorem forM_eq_ok {f : α → Except ε Unit} {l : List α} :
    l.forM f = .ok () ↔ ∀ a ∈ l, f a = .ok () := by
  induction l with
  | nil => simp [pure, Except.pure]
  | cons a l ih =>
    have hcons : (a :: l).forM f = (f a >>= fun _ => l.forM f) := rfl
    rw [hcons, List.forall_mem_cons, ← ih, except_bind_eq_ok]
    exact ⟨fun ⟨_, ha, hl⟩ => ⟨ha, hl⟩, fun ⟨ha, hl⟩ => ⟨(), ha, hl⟩⟩

/-- Results can be gathered if none of them is an error. -/
theorem mapM_id_eq_ok {rs : List (Except ε α)} {as : List α} :
    rs.mapM id = .ok as ↔ rs = as.map .ok := by
  induction rs generalizing as with
  | nil => cases as <;> simp [pure, Except.pure]
  | cons r rs ih =>
    rw [List.mapM_cons, id, except_bind_eq_ok]
    constructor
    · rintro ⟨a, rfl, h⟩
      obtain ⟨bs, hbs, e⟩ := except_bind_eq_ok.1 h
      cases e
      rw [ih.1 hbs, List.map_cons]
    · intro h
      rcases as with _ | ⟨a, as⟩
      · cases h
      · obtain ⟨rfl, hrs⟩ := List.cons.inj h
        exact ⟨a, rfl, except_bind_eq_ok.2 ⟨as, ih.2 hrs, rfl⟩⟩

/-! ## Values and errors -/

/-- A computation whose value, if it gives one, has the property `P`, and whose error, if it fails,
has the property `F`. -/
def Gives (F : ε → Prop) (P : α → Prop) : Except ε α → Prop
  | .ok a => P a
  | .error e => F e

section

variable {F : ε → Prop} {P : α → Prop} {Q : β → Prop}

theorem gives_ok {a : α} (h : P a) : Gives F P (.ok a) := h

theorem gives_pure {a : α} (h : P a) : Gives F P (pure a) := h

theorem gives_error {e : ε} (h : F e) : Gives F P (.error e) := h

theorem Gives.error {x : Except ε α} (h : Gives F P x) {e : ε} (hx : x = .error e) : F e := by
  subst hx
  exact h

/-- The second of two computations in a row may rely on what the first one gives. -/
theorem Gives.bind {x : Except ε α} {f : α → Except ε β} (hx : Gives F P x)
    (hf : ∀ a, P a → Gives F Q (f a)) : Gives F Q (x >>= f) := by
  cases x with
  | error e => exact hx
  | ok a => exact hf a hx

/-- If it does not matter what fails, it does not matter what the first computation gives. -/
theorem gives_bind {x : Except ε α} {f : α → Except ε β}
    (hf : ∀ a, Gives (fun _ => True) Q (f a)) : Gives (fun _ => True) Q (x >>= f) := by
  cases x with
  | error e => trivial
  | ok a => exact hf a

theorem Gives.ite {x y : Except ε α} {p : Prop} [Decidable p] (hx : p → Gives F P x)
    (hy : ¬ p → Gives F P y) : Gives F P (if p then x else y) := by
  split
  · exact hx ‹_›
  · exact hy ‹_›

/-- A check of all entries fails as one of the checks does. -/
theorem gives_forM {f : α → Except ε Unit} (h : ∀ a, Gives F (fun _ => True) (f a)) (l : List α) :
    Gives F (fun _ => True) (l.forM f) := by
  induction l with
  | nil => exact gives_pure trivial
  | cons a l ih => exact (h a).bind fun _ _ => ih

end

/-! ## Two computations -/

/-- Two computations that give values in the relation `R`, or fail with the same error. -/
inductive Paired (R : α → β → Prop) : Except ε α → Except ε β → Prop
  | ok {a : α} {b : β} (h : R a b) : Paired R (.ok a) (.ok b)
  | error (e : ε) : Paired R (.error e) (.error e)

section

variable {R : α → β → Prop} {S : γ → δ → Prop}

theorem Paired.bind {x : Except ε α} {y : Except ε β} {f : α → Except ε γ} {g : β → Except ε δ}
    (h : Paired R x y) (hf : ∀ a b, R a b → Paired S (f a) (g b)) :
    Paired S (x >>= f) (y >>= g) := by
  cases h with
  | ok h => exact hf _ _ h
  | error e => exact .error e

/-- Two computations are paired if they both succeed or both fail. -/
theorem paired_iff {x : Except ε α} {y : Except ε β} : Paired R x y ↔
    (∃ a b, x = .ok a ∧ y = .ok b ∧ R a b) ∨ ∃ e, x = .error e ∧ y = .error e := by
  constructor
  · intro h
    cases h with
    | ok h => exact .inl ⟨_, _, rfl, rfl, h⟩
    | error e => exact .inr ⟨e, rfl, rfl⟩
  · rintro (⟨a, b, rfl, rfl, h⟩ | ⟨e, rfl, rfl⟩)
    · exact .ok h
    · exact .error e

theorem Paired.eq {x y : Except ε α} (h : Paired (· = ·) x y) : x = y := by
  cases h with
  | ok h => rw [h]
  | error e => rfl

/-- The first of two computations in a row is the same on both sides. -/
theorem Paired.bind_eq {x y : Except ε α} {f : α → Except ε γ} {g : α → Except ε δ} (h : x = y)
    (hf : ∀ a, Paired S (f a) (g a)) : Paired S (x >>= f) (y >>= g) := by
  subst h
  cases x with
  | error e => exact .error e
  | ok a => exact hf a

end

end Eqasm
