/-!
# Log events

What the parts of the library have to say while they work. The log is not a part of any state:
each part computes its events from what it was given and what it made of it.
-/

namespace Eqasm

/-- How important an event is. -/
inductive Level where
  | warn | info | debug | trace
  deriving DecidableEq, Repr

/-- A higher rank is a less important level. -/
def Level.rank : Level → Nat
  | warn => 0
  | info => 1
  | debug => 2
  | trace => 3

/-- The part that an event comes from. -/
inductive Component where
  | lexer | parser | loader | registers | backend | processor
  deriving DecidableEq, Repr

/-- Something worth a line in the log. -/
structure Event where
  level : Level
  component : Component
  message : String
  deriving DecidableEq, Repr

/-- Whether an event is shown to one who asks for events of a level. -/
def Event.shownAt (e : Event) (threshold : Level) : Bool :=
  e.level.rank ≤ threshold.rank

end Eqasm
