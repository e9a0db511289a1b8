import Eqasm.Assembly
import Eqasm.Proofs.Token.Lines

/-!
# Layout does not matter

A text with a gap inserted between its tokens is assembled to the same (`assemble_insert`): the gap
leaves the tokens on their lines, and nothing else is read of their places.
-/

namespace Eqasm

/-- **Layout does not matter.** If a text in lower case has tokens, a gap that is inserted between
two of them, or in front of the end of a line, leaves them on their lines, and the text is assembled
to the same. -/
theorem assemble_insert {u v w : String} {ts : List Located}
    (hlower : Text.lower (u ++ v).toList = (u ++ v).toList) (hts : tokenize (u ++ v) = .ok ts)
    (hplace : Between u.toList v.toList ∨ ∀ c ∈ v.toList.head?, c = '\n')
    (hw : Gap v.toList w.toList) :
    (∃ ts', tokenize (u ++ w ++ v) = .ok ts' ∧
      ts'.map (fun t => (t.token, t.line)) = ts.map fun t => (t.token, t.line)) ∧
    ∃ a, assemble (u ++ v) = .ok a ∧ assemble (u ++ w ++ v) = .ok a := by
  obtain ⟨ts', hts', hmap⟩ := tokenize_insert hlower hts hplace hw
  constructor
  · have hpairs := congrArg (List.map fun t : LineToken => (t.token, t.line)) hmap
    rw [List.map_map, List.map_map] at hpairs
    exact ⟨ts', hts', hpairs⟩
  · have hsame : assembleTokens ts' = assembleTokens ts := by
      rw [assembleTokens, hmap, assembleTokens]
    refine ⟨assembleTokens ts, ?_, ?_⟩
    · rw [assemble, hts]
      rfl
    · rw [assemble, hts', ← hsame]
      rfl

/-- Between a label and a stop that stand together, blanks are inserted. -/
theorem assemble_insert_of_blanks :
    ∃ a, assemble ("a:" ++ "stop") = .ok a ∧ assemble ("a:" ++ " \t" ++ "stop") = .ok a := by
  have hlower : Text.lower ("a:" ++ "stop").toList =
      Row.text [some (.ident "a"), some .colon, some (.keyword .stop)] := by
    decide +kernel
  have hname : IsName "a" := by decide +kernel
  obtain ⟨ts, hts, -⟩ := tokenize_of_row hlower
    (by simp [Row.Apart, isBreak, Token.isSign]) (by simp [hname])
  have hcolon : Between [':'] "stop".toList :=
    @Between.behind [] [] _ (.sign ':' .colon) .nil rfl (.nil _)
  have hplace : Between "a:".toList "stop".toList :=
    @Between.behind [] [':'] _ (.word 'a' []) .nil rfl hcolon
  have hw : Gap "stop".toList " \t".toList := .blank (.inl rfl) (.blank (.inr (.inl rfl)) .nil)
  exact (assemble_insert (by decide +kernel) hts (.inl hplace) hw).2

end Eqasm
