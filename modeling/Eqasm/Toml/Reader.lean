/-!
# Readers

A reader takes what it looks for from the front of a text, or fails. Where one reader fails another
can begin at the same place.
-/

namespace Eqasm.Toml

/-- A reader of an `α`. -/
abbrev Reader := StateT (List Char) Option

namespace Reader

/-- Takes the longest row of characters with a property. -/
def row (p : Char → Bool) : Reader (List Char) := fun text =>
  some (text.takeWhile p, text.dropWhile p)

/-- Takes a character with a property. -/
def character (p : Char → Bool) : Reader Char := fun text =>
  match text with
  | c :: rest => if p c then some (c, rest) else none
  | [] => none

/-- Takes a given text. -/
def word (w : String) : Reader Unit := fun text =>
  (w.toList.isPrefixOf? text).map ((), ·)

/-- Succeeds unless a given text comes next. -/
def except (w : String) : Reader Unit := fun text =>
  if w.toList.isPrefixOf text then none else some ((), text)

/-- Succeeds at the end of the text. -/
def ended : Reader Unit := fun text =>
  if text.isEmpty then some ((), text) else none

/-- Succeeds in front of the end of the text. -/
def unended : Reader Unit := fun text =>
  if text.isEmpty then none else some ((), text)

/-- Takes up to `n` items. -/
def upTo {α : Type} (item : Reader α) : Nat → Reader (List α)
  | 0 => pure []
  | n + 1 => (do return (← item) :: (← upTo item n)) <|> pure []

/-- Takes as many items as there are. Each item should take some text. -/
def many {α : Type} (item : Reader α) : Reader (List α) := do
  upTo item (← get).length

/-- Takes items with a separator between them. -/
def separated {α : Type} (item : Reader α) (separator : String) : Reader (List α) :=
  (do return (← item) :: (← many (word separator *> item))) <|> pure []

end Reader

end Eqasm.Toml
