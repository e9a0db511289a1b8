import Eqasm.Proofs.Token.Lines
import Mathlib.Algebra.Group.Int.Defs

/-!
# Literals

A literal of a number is a numeral of it in any letter case. Where a lexer comes to a literal with a
proper end behind it (`Delimits`), the next item is the number, or an error at its place if 64 bits
cannot hold it (`Lexer.Faces.next_of_spells`).
-/

namespace Eqasm

/-- A text that starts with nothing that a word or a number could go on with, in any letter case. -/
def Delimits (behind : List Char) : Prop :=
  ∀ c ∈ behind.head?, c.toNat < 128 ∧ isWordPart c.toLower = false

/-- Blanks, the ends of lines, comments and punctuation end a literal. -/
theorem delimits_cons {c : Char}
    (hc : c ∈ [' ', '\t', '\r', '\n', '#', '(', ')', '{', '}', ',', ':', '|'])
    (rest : List Char) : Delimits (c :: rest) := by
  have hall : [' ', '\t', '\r', '\n', '#', '(', ')', '{', '}', ',', ':', '|'].all
      fun c => c.toNat < 128 ∧ isWordPart c.toLower = false := by
    decide
  intro d hd
  rw [List.head?_cons, Option.mem_some_iff] at hd
  exact hd ▸ of_decide_eq_true (List.all_eq_true.1 hall c hc)

/-- A literal is lowered to its numeral, and what ends it is lowered to what ends the numeral. In
front of it ASCII is lowered as it is without any context. -/
theorem exists_lowered_literal {literal lowered behind : List Char} (h : Lowers literal lowered)
    (hb : Delimits behind) (before : List Char) :
    ∃ u v, Text.lower (before ++ (literal ++ behind)) = u ++ (lowered ++ v) ∧
      (∀ w, Lowers before w → u = w) ∧ Breaks v := by
  obtain ⟨u, hu, -⟩ := Text.exists_lowerFrom_append [] before (literal ++ behind)
  rw [h.lowerFrom_append] at hu
  refine ⟨u, _, hu, ?_, ?_⟩
  · intro w hw
    have hbefore := hw.lowerFrom_append [] (literal ++ behind)
    rw [h.lowerFrom_append] at hbefore
    exact List.append_cancel_right (hu.symm.trans hbefore)
  · cases behind with
    | nil => simp [Breaks, Text.lowerFrom]
    | cons c behind =>
      obtain ⟨hascii, hc⟩ := hb c rfl
      rw [Text.lowerFrom, Text.lowerInContext_of_ascii hascii]
      exact Row.breaks_cons hc _

/-! ## Lexers -/

namespace Lexer

/-- A lexer that comes to `rest` next: at most a gap lies between the place where it stands and the
end of `before`, where `rest` starts. -/
structure Faces (l : Lexer) (before rest : List Char) : Prop where
  unfinished : l.finished = false
  gap : ∃ read gap, before = read ++ gap ∧ l.At read ∧ l.rest = gap ++ rest ∧ Gap rest gap

variable {l : Lexer} {before rest : List Char} {x : Lexeme}

/-- What a lexer makes of a lexeme behind a gap. -/
theorem next_of_lexeme? {gap : List Char} (hf : l.finished = false)
    (hl : l.rest = gap ++ (x.chars ++ rest)) (hgap : Gap (x.chars ++ rest) gap)
    (hx : lexeme? (x.chars ++ rest) = some x) :
    l.next = match x.token with
      | .error number =>
        (some (.error (.integerOverflow number l.line (l.column (x.chars ++ rest)))),
          { l with finished := true })
      | .ok t =>
        (some (.ok ⟨t, l.line, l.column (x.chars ++ rest)⟩),
          l.pass t (l.offset (x.chars ++ rest) + byteLength x.chars)) := by
  have hahead := ahead_of_append hl hgap (noBlank_of_lexeme? hx)
  obtain ⟨c, others, htext⟩ := List.exists_cons_of_ne_nil
    (List.append_ne_nil_of_left_ne_nil (chars_ne_nil_of_lexeme? hx) rest)
  rw [htext] at hahead hx ⊢
  rw [next, if_neg (by simp [hf]), hahead]
  cases ht : x.token with
  | error number => simp only [hx, ht]
  | ok t => simp only [hx, ht]

/-- A lexer that comes to a lexeme gives its token and leaves it behind, or gives an error. -/
theorem Faces.next (h : l.Faces before (x.chars ++ rest))
    (hx : lexeme? (x.chars ++ rest) = some x) :
    match x.token with
    | .error number => ∃ l', l.next =
        (some (.error (.integerOverflow number (lineBehind before) (columnBehind before))), l')
    | .ok t => ∃ l', l.next = (some (.ok ⟨t, lineBehind before, columnBehind before⟩), l') ∧
        l'.At (before ++ x.chars) ∧ l'.finished = false := by
  obtain ⟨hf, read, gap, rfl, hat, hl, hgap⟩ := h
  have hnext := next_of_lexeme? hf hl hgap hx
  rw [hat.line_gap hgap, hat.column_gap hl hgap] at hnext
  cases ht : x.token with
  | error number =>
    rw [ht] at hnext
    exact ⟨_, hnext⟩
  | ok t =>
    rw [ht] at hnext
    exact ⟨_, hnext, hat.pass hl hgap hx ht, by rwa [finished_pass]⟩

/-- **The item of a numeral** is its number, or an error at its place. -/
theorem Faces.next_of_spells {literal : List Char} {n : Int} (h : l.Faces before (literal ++ rest))
    (hn : Spells literal n) (hr : Breaks rest) :
    if -2 ^ 63 ≤ n ∧ n < 2 ^ 63 then
      ∃ l', l.next = (some (.ok ⟨.int n, lineBehind before, columnBehind before⟩), l') ∧
        l'.At (before ++ literal) ∧ l'.finished = false
    else ∃ text l', text.toList <:+ literal ∧ l.next =
      (some (.error (.integerOverflow text (lineBehind before) (columnBehind before))), l') := by
  obtain ⟨x, text, hx, rfl, hsuffix, htoken⟩ := lexeme?_of_spells hn hr
  have hnext := h.next hx
  rw [htoken] at hnext
  split
  · rename_i hfits
    rw [intToken?_of_valid (show (Token.int n).Valid by simp only [Token.Valid]; omega)] at hnext
    exact hnext
  · rename_i hlarge
    have hnone : intToken? n = none := if_neg (by omega)
    rw [hnone] at hnext
    obtain ⟨l', hl'⟩ := hnext
    exact ⟨.ofList text, l', by rwa [String.toList_ofList], hl'⟩

end Lexer

end Eqasm
