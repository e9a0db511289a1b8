import Eqasm.Proofs.Token.Spelling
import Mathlib.Data.List.Chain

/-!
# Rows of tokens and blanks

A row is a text cut into tokens and blanks. Its words and numbers stand apart if of any two
neighbours one is a blank or a sign (`Row.Apart`); then behind each of them the text breaks
(`Row.Apart.breaks_text`).
-/

namespace Eqasm

/-- Tokens in order, with `none` for each blank. -/
abbrev Row := List (Option Token)

/-- A blank or a sign. -/
def isBreak (p : Option Token) : Bool :=
  p.all Token.isSign

namespace Row

/-- The text of a row in lower case. -/
def text : Row → List Char
  | [] => []
  | none :: rest => ' ' :: text rest
  | some t :: rest => t.spelling ++ text rest

/-- The tokens of a row. -/
def tokens (r : Row) : List Token :=
  r.filterMap id

/-- No word or number of the row runs into another one. -/
def Apart (r : Row) : Prop :=
  r.IsChain fun p q => isBreak p ∨ isBreak q

@[simp] theorem text_nil : text [] = [] := rfl

@[simp] theorem text_blank (r : Row) : text (none :: r) = ' ' :: text r := rfl

@[simp] theorem text_token (t : Token) (r : Row) : text (some t :: r) = t.spelling ++ text r := rfl

@[simp] theorem text_append (r s : Row) : text (r ++ s) = text r ++ text s := by
  induction r with
  | nil => rfl
  | cons p r ih => cases p <;> simp [ih]

@[simp] theorem tokens_nil : tokens [] = [] := rfl

@[simp] theorem tokens_blank (r : Row) : tokens (none :: r) = tokens r := rfl

@[simp] theorem tokens_token (t : Token) (r : Row) : tokens (some t :: r) = t :: tokens r := rfl

@[simp] theorem tokens_append (r s : Row) : tokens (r ++ s) = tokens r ++ tokens s :=
  List.filterMap_append

/-- All tokens of the row have a property. -/
def All (P : Token → Prop) (r : Row) : Prop :=
  ∀ t ∈ r.tokens, P t

@[simp] theorem all_nil {P : Token → Prop} : All P [] := by
  simp [All]

@[simp] theorem all_blank {P : Token → Prop} {r : Row} : All P (none :: r) ↔ All P r := Iff.rfl

@[simp] theorem all_token {P : Token → Prop} {t : Token} {r : Row} :
    All P (some t :: r) ↔ P t ∧ All P r := by
  simp [All]

@[simp] theorem all_append {P : Token → Prop} {r s : Row} :
    All P (r ++ s) ↔ All P r ∧ All P s := by
  simp [All, or_imp, forall_and]

theorem All.intercalate {P : Token → Prop} {sep : Row} (hsep : All P sep) {rows : List Row}
    (h : ∀ r ∈ rows, All P r) : All P (sep.intercalate rows) := by
  induction rows with
  | nil => simp
  | cons r rows ih =>
    have hr := h r (by simp)
    have hrows := ih fun q hq => h q (by simp [hq])
    cases rows with
    | nil => simpa using hr
    | cons q rows =>
      rw [List.intercalate_cons_cons, all_append, all_append]
      exact ⟨⟨hr, hsep⟩, hrows⟩

theorem apart_cons_of_isBreak {p : Option Token} (hp : isBreak p) {r : Row} :
    Apart (p :: r) ↔ Apart r := by
  cases r with
  | nil => simp [Apart]
  | cons q r => simp [Apart, hp]

/-- Rows can be joined at a blank or a sign. -/
theorem apart_append_cons {p : Option Token} (hp : isBreak p) {r s : Row} :
    Apart (r ++ p :: s) ↔ Apart r ∧ Apart s := by
  induction r with
  | nil => simpa [Apart] using apart_cons_of_isBreak hp
  | cons q r ih =>
    cases r with
    | nil =>
      have := apart_cons_of_isBreak hp (r := s)
      simp_all [Apart]
    | cons q' r => simp_all [Apart, and_assoc]

theorem apart_append {sep : Row} (hne : sep ≠ []) (hsep : ∀ p ∈ sep, isBreak p) {r s : Row}
    (hr : Apart r) (hs : Apart s) : Apart (r ++ (sep ++ s)) := by
  induction sep generalizing r with
  | nil => exact absurd rfl hne
  | cons p sep ih =>
    rw [List.cons_append, apart_append_cons (hsep p (by simp))]
    refine ⟨hr, ?_⟩
    cases sep with
    | nil => exact hs
    | cons q sep => exact ih (by simp) (fun p hp => hsep p (by simp [hp])) List.isChain_nil

/-- Rows with blanks and signs between them. -/
theorem apart_intercalate {sep : Row} (hne : sep ≠ []) (hsep : ∀ p ∈ sep, isBreak p)
    {rows : List Row} (h : ∀ r ∈ rows, Apart r) : Apart (sep.intercalate rows) := by
  induction rows with
  | nil => exact List.isChain_nil
  | cons r rows ih =>
    have hr := h r (by simp)
    have hrows := ih fun q hq => h q (by simp [hq])
    cases rows with
    | nil => simpa using hr
    | cons q rows =>
      rw [List.intercalate_cons_cons, List.append_assoc]
      exact apart_append hne hsep hr hrows

theorem breaks_cons {c : Char} (h : isWordPart c = false) (rest : List Char) :
    Breaks (c :: rest) := by
  rintro d ⟨⟩
  exact h

/-- The text of a row breaks at a blank or a sign. -/
theorem breaks_text_cons {p : Option Token} (hp : isBreak p) (r : Row) :
    Breaks (text (p :: r)) := by
  cases p with
  | none => exact breaks_cons (by decide) _
  | some t =>
    cases t with
    | int _ | register _ _ | keyword _ | flag _ | ident _ => cases hp
    | lparen | rparen | lbrace | rbrace | comma | colon | bar | newline =>
      exact breaks_cons (by decide) _

/-- Behind a word or a number the text of a row breaks. -/
theorem Apart.breaks_text {t : Token} {r : Row} (h : Apart (some t :: r))
    (ht : t.isSign = false) : Breaks (text r) := by
  cases r with
  | nil => simp [Breaks]
  | cons p r =>
    have hp : isBreak p := by simpa [Apart, isBreak, ht] using (List.isChain_cons_cons.1 h).1
    exact breaks_text_cons hp r

end Row

end Eqasm
