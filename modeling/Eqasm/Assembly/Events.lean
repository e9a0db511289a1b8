import Eqasm.Assembly
import Eqasm.Instruction.Listing
import Eqasm.Log

/-!
# The log of an assembly

Each token is logged where it was found, then each line with what it added, and last the totals.
-/

namespace Eqasm

/-- The event of a token. Errors are not logged by the lexer. -/
def lexEvent? : Except LexError Located → Option Event
  | .ok t => some ⟨.debug, .lexer, s!"lex {t.line}:{t.column}: {t.token.inspect}"⟩
  | .error _ => none

/-- The events of the tokens that are left. -/
def Lexer.events (l : Lexer) : List Event :=
  l.remaining.filterMap lexEvent?

namespace Assembly

/-- The events of what `later` has more than `earlier`. A label counts as long as it is pending. -/
def difference (earlier later : Assembly) : List Event :=
  (later.pending.drop earlier.pending.length).map
      (fun p => ⟨.debug, .parser, "found label: " ++ p.1⟩) ++
    (later.instructions.extract earlier.instructions.size).toList.map
      (fun i => ⟨.debug, .parser, "insn added: " ++ i.text⟩) ++
    (later.diagnostics.extract earlier.diagnostics.size).toList.map
      (fun d => ⟨.warn, .parser, "syntax error: " ++ d.text⟩)

/-- The event of a whole program. -/
def summary (a : Assembly) : Event :=
  let counts := s!"{a.instructions.size} instructions, {a.labels.size} labels, "
  ⟨.info, .parser, s!"parsed {counts}{a.diagnostics.size} errors"⟩

end Assembly

namespace Assembler

/-- The events of a line: its labels come before the rest. -/
def lineEvents (p : Assembler) : List Event :=
  let declared := (declareLabels p).1.made
  p.made.difference declared ++ declared.difference p.nextLine.made

/-- The events of assembling line by line, up to the end of the text. -/
def events (p : Assembler) : List Event :=
  if _h : p.cursor.left = [] then
    p.made.difference p.made.finish ++ [p.made.finish.summary]
  else p.lineEvents ++ events p.nextLine
termination_by p.cursor.left.length
decreasing_by exact length_nextLine _h

end Assembler

/-- The events of assembling a text. -/
def assembleEvents (source : String) : List Event :=
  let l := Lexer.ofString source
  l.events ++ match tokenize source with
    | .error _ => []
    | .ok tokens => Assembler.events { made := {}, cursor := .start (tokens.map (·.onLine)) }

end Eqasm
