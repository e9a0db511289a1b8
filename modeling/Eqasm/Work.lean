/-!
# Work on a state

Work changes a state one step after the other and ends with a value or an error. An error does not
undo anything: the state is what the steps before it have made of it.
-/

namespace Eqasm

/-- Work on a state of type `σ`, which may end with an error. What was done before stays done. -/
def Work (σ ε α : Type) : Type :=
  σ → σ × Except ε α

namespace Work

variable {σ τ ε α : Type}

instance : Monad (Work σ ε) where
  pure a s := (s, .ok a)
  bind w f s :=
    match w s with
    | (s, .ok a) => f a s
    | (s, .error e) => (s, .error e)

variable {γ : Type}

/-- The second of two pieces of work goes on where the first one has succeeded. -/
theorem bind_of_ok {w : Work σ ε α} {f : α → Work σ ε γ} {s t : σ} {a : α}
    (h : w s = (t, .ok a)) : (w >>= f) s = f a t := by
  simp only [bind, h]

/-- An error of the first of two pieces of work is the error of both. -/
theorem bind_of_error {w : Work σ ε α} {f : α → Work σ ε γ} {s t : σ} {e : ε}
    (h : w s = (t, .error e)) : (w >>= f) s = (t, .error e) := by
  simp only [bind, h]

/-- Looks something up. -/
def look (f : σ → Except ε α) : Work σ ε α :=
  fun s => (s, f s)

/-- Makes a change. -/
def change (f : σ → σ) : Work σ ε Unit :=
  fun s => (f s, .ok ())

/-- Makes a change, or none if it is refused. -/
def attempt (f : σ → Except ε σ) : Work σ ε Unit :=
  fun s =>
    match f s with
    | .ok t => (t, .ok ())
    | .error e => (s, .error e)

/-- Works on a part of a state. -/
def part (get : σ → τ) (set : σ → τ → σ) (w : Work τ ε α) : Work σ ε α :=
  fun s =>
    match w (get s) with
    | (t, r) => (set s t, r)

/-- The state behind work, if there is no error. -/
def exec (w : Work σ ε Unit) (s : σ) : Except ε σ :=
  match w s with
  | (t, .ok ()) => .ok t
  | (_, .error e) => .error e

end Work

end Eqasm
