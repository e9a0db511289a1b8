import Eqasm.LabelTable
import Eqasm.Statement.Reading
import Eqasm.Token.Lexer

/-!
# Assembly

A program text becomes a list of instructions line by line. A line declares labels and then holds
at most one statement. Its operations are added to the program, and the labels that were declared
since the last operation name the first of them.

The text is not cut into lines. `Assembler.line` reads on from the place that it has come to, and
stops at a problem. Then the problem is noted, and the tokens up to the end of the line are skipped
from this place on (`Assembler.nextLine`). The labels that were declared before the problem stay. A
label that is still waiting at the end is a problem too.
-/

namespace Eqasm

/-- A program as far as it is assembled. -/
structure Assembly where
  instructions : Array Instruction := #[]
  labels : LabelTable := .empty
  /-- The labels that name the next operation, with their lines. -/
  pending : List (String × Nat) := []
  diagnostics : Array Diagnostic := #[]
  deriving DecidableEq, Repr

namespace Assembly

/-- Whether no line has a problem. -/
def succeeded (a : Assembly) : Bool :=
  a.diagnostics.isEmpty

/-- Whether a label is declared already. -/
def declares (a : Assembly) (label : String) : Bool :=
  a.labels.contains label || a.pending.any (·.1 = label)

/-- Declares a label. -/
def declare (a : Assembly) (label : String) (line : Nat) : Assembly :=
  { a with pending := a.pending ++ [(label, line)] }

/-- Notes a problem. -/
def report (a : Assembly) (d : Diagnostic) : Assembly :=
  { a with diagnostics := a.diagnostics.push d }

/-- Instructions for operations, the first one with labels. -/
def label (labels : List String) : List Operation → List Instruction
  | [] => []
  | o :: rest => ⟨labels, o⟩ :: rest.map fun o => ⟨[], o⟩

/-- Adds operations. The first one gets the pending labels. -/
def emit (a : Assembly) (operations : List Operation) : Assembly :=
  let names := a.pending.map (·.1)
  let index := a.instructions.size
  { a with
    instructions := a.instructions ++ label names operations
    labels := a.labels.insertAll index names
    pending := [] }

/-- Reports the labels that are still pending. -/
def finish (a : Assembly) : Assembly :=
  { a.pending.foldl (fun a (name, line) => a.report ⟨line, .danglingLabel name⟩) a with
    pending := [] }

end Assembly

namespace Cursor

/-- The name of the label that is declared at a place. -/
def label? (c : Cursor) : Option String :=
  match c.next?, c.advance.next? with
  | some (.ident name), some .colon => some name
  | _, _ => none

theorem label?_eq_some {c : Cursor} {name : String} :
    c.label? = some name ↔ c.next? = some (.ident name) ∧ c.advance.next? = some .colon := by
  rw [label?]
  split
  · rename_i hname hcolon
    simp [hname, hcolon]
  · rename_i h
    simpa using h name

/-- The place behind the next line end. -/
def skipLine (c : Cursor) : Cursor :=
  { c with left := (c.left.dropWhile (·.token ≠ .newline)).tail }

theorem suffix_skipLine (c : Cursor) : c.skipLine.left <:+ c.left :=
  (List.tail_suffix _).trans (List.dropWhile_suffix _)

/-- A line that is skipped takes a token with it, if there is any. -/
theorem length_skipLine {c : Cursor} {n : Nat} (h : c.left.length ≤ n) (hn : 0 < n) :
    c.skipLine.left.length < n := by
  have hle := (List.dropWhile_suffix (l := c.left) (·.token ≠ .newline)).length_le
  simp only [skipLine, List.length_tail]
  omega

end Cursor

/-- What is assembled, and the place in the text that the assembler has come to. -/
structure Assembler where
  made : Assembly
  cursor : Cursor

namespace Assembler

/-- Reads on from the place in the text. -/
def reading {α : Type} (w : Work Cursor Diagnostic α) : Work Assembler Diagnostic α :=
  w.part (·.cursor) fun p cursor => { p with cursor }

/-- Declares the labels at the start of a line, up to one that is declared already. -/
def declareLabels (p : Assembler) : Assembler × Except Diagnostic Unit :=
  match _h : p.cursor.label? with
  | none => (p, .ok ())
  | some name =>
    if p.made.declares name then (p, .error ⟨p.cursor.line, .duplicateLabel name⟩)
    else
      declareLabels
        { made := p.made.declare name p.cursor.line, cursor := p.cursor.advance.advance }
termination_by p.cursor.left.length
decreasing_by
  obtain ⟨hname, hcolon⟩ := Cursor.label?_eq_some.1 _h
  exact Nat.lt_trans (Cursor.length_advance (by simp [hcolon]))
    (Cursor.length_advance (by simp [hname]))

/-- Assembles a line, up to its end or to a problem. -/
def line : Work Assembler Diagnostic Unit := do
  declareLabels
  match ← reading readBody with
  | some s => Work.change fun p => { p with made := p.made.emit s.expand }
  | none => return

/-- Assembles a line. A problem is noted, and the rest of the line is skipped. -/
def nextLine (p : Assembler) : Assembler :=
  match line p with
  | (p, .ok ()) => p
  | (p, .error d) => { made := p.made.report d, cursor := p.cursor.skipLine }

/-- What is done behind the labels of a line. -/
theorem line_of_labels {p q : Assembler} (h : declareLabels p = (q, .ok ())) : line p =
    match readBody q.cursor with
    | (c, .error d) => ({ q with cursor := c }, .error d)
    | (c, .ok none) => ({ q with cursor := c }, .ok ())
    | (c, .ok (some s)) => ({ made := q.made.emit s.expand, cursor := c }, .ok ()) := by
  rw [line, Work.bind_of_ok h]
  rcases hbody : readBody q.cursor with ⟨c, d | s?⟩
  · have hreading : reading readBody q = ({ q with cursor := c }, .error d) := by
      rw [reading, Work.part, hbody]
    exact Work.bind_of_error hreading
  · have hreading : reading readBody q = ({ q with cursor := c }, .ok s?) := by
      rw [reading, Work.part, hbody]
    rw [Work.bind_of_ok hreading]
    cases s? <;> rfl

/-- The ways in which a line is assembled. -/
inductive ReadsLine (p : Assembler) : Assembler → Except Diagnostic Unit → Prop
  | duplicate {q : Assembler} {d : Diagnostic} (h : declareLabels p = (q, .error d)) :
    ReadsLine p q (.error d)
  | malformed {q : Assembler} {c : Cursor} {d : Diagnostic} (h : declareLabels p = (q, .ok ()))
    (hbody : readBody q.cursor = (c, .error d)) : ReadsLine p { q with cursor := c } (.error d)
  | empty {q : Assembler} {c : Cursor} (h : declareLabels p = (q, .ok ()))
    (hbody : readBody q.cursor = (c, .ok none)) : ReadsLine p { q with cursor := c } (.ok ())
  | statement {q : Assembler} {c : Cursor} {s : Statement} (h : declareLabels p = (q, .ok ()))
    (hbody : readBody q.cursor = (c, .ok (some s))) :
    ReadsLine p { made := q.made.emit s.expand, cursor := c } (.ok ())

theorem readsLine_of_line {p q : Assembler} {r : Except Diagnostic Unit} (h : line p = (q, r)) :
    ReadsLine p q r := by
  rcases hlabels : declareLabels p with ⟨p', d | _⟩
  · rw [line, Work.bind_of_error hlabels] at h
    cases h
    exact .duplicate hlabels
  · rw [line_of_labels hlabels] at h
    split at h <;> rename_i hbody <;> cases h
    · exact .malformed hlabels hbody
    · exact .empty hlabels hbody
    · exact .statement hlabels hbody

/-! ## Progress -/

theorem suffix_declareLabels {p q : Assembler} {r : Except Diagnostic Unit}
    (h : declareLabels p = (q, r)) : q.cursor.left <:+ p.cursor.left := by
  fun_induction declareLabels p with
  | case1 =>
    cases h
    exact List.suffix_rfl
  | case2 =>
    cases h
    exact List.suffix_rfl
  | case3 p _ _ _ ih => exact (ih h).trans ((List.tail_suffix _).trans (List.tail_suffix _))

theorem ReadsLine.suffix {p q : Assembler} {r : Except Diagnostic Unit} (h : ReadsLine p q r) :
    q.cursor.left <:+ p.cursor.left := by
  cases h with
  | duplicate h => exact suffix_declareLabels h
  | malformed h hbody | empty h hbody | statement h hbody =>
    exact (readsBody_of_readBody hbody).suffix.trans (suffix_declareLabels h)

/-- A line without a problem takes at least one token, if any is left. -/
theorem ReadsLine.length_lt {p q : Assembler} (h : ReadsLine p q (.ok ()))
    (hp : p.cursor.left ≠ []) : q.cursor.left.length < p.cursor.left.length := by
  have hbody {q : Assembler} {c : Cursor} {s? : Option Statement}
      (h : declareLabels p = (q, .ok ())) (hbody : readBody q.cursor = (c, .ok s?)) :
      c.left.length < p.cursor.left.length := by
    have hread := readsBody_of_readBody hbody
    have hlabels := (suffix_declareLabels h).length_le
    by_cases hq : q.cursor.left = []
    · have hc : c.left = [] := List.suffix_nil.1 (hq ▸ hread.suffix)
      rw [hc]
      exact List.length_pos_iff.2 hp
    · exact Nat.lt_of_lt_of_le (hread.length_lt hq) hlabels
  cases h with
  | empty h h' | statement h h' => exact hbody h h'

/-- However a line is assembled, at least one token is left behind. -/
theorem length_nextLine {p : Assembler} (hp : p.cursor.left ≠ []) :
    p.nextLine.cursor.left.length < p.cursor.left.length := by
  rw [nextLine]
  split <;> rename_i h
  · exact (readsLine_of_line h).length_lt hp
  · exact Cursor.length_skipLine (readsLine_of_line h).suffix.length_le (List.length_pos_iff.2 hp)

/-- Assembles line by line, up to the end of the text. -/
def run (p : Assembler) : Assembly :=
  if _h : p.cursor.left = [] then p.made.finish else run p.nextLine
termination_by p.cursor.left.length
decreasing_by exact length_nextLine _h

end Assembler

/-- Assembles the tokens of a text. Their columns do not matter. -/
def assembleTokens (ts : List Located) : Assembly :=
  Assembler.run { made := {}, cursor := .start (ts.map (·.onLine)) }

/-- Assembles a text, unless it has no tokens. -/
def assemble (source : String) : Except LexError Assembly :=
  (tokenize source).map assembleTokens

end Eqasm
