import Eqasm.Token

/-!
# Diagnostics

What can be wrong with a line of a program. A `Problem` keeps the cause, a `Diagnostic` adds the
line; `Problem.message` and `Problem.found` word it.
-/

namespace Eqasm

/-- What the grammar asks for at some place. -/
inductive Expectation where
  | instruction
  | integer
  | register (c : RegisterClass)
  | flag
  | label
  | quantumOperation
  | targetRegister
  | sign (token : Token)
  | endOfLine
  deriving DecidableEq, Repr

/-- The wording of an expectation. -/
def Expectation.text : Expectation → String
  | instruction => "an instruction"
  | integer => "an integer"
  | register .general => "a general purpose register"
  | register .single => "a single-qubit target register"
  | register .pair => "a two-qubit target register"
  | register .qubit => "a qubit"
  | register .float => "a floating point register"
  | flag => "a condition flag"
  | label => "a label"
  | quantumOperation => "a quantum operation"
  | targetRegister => "a target register"
  | sign token => token.text
  | endOfLine => "end of line"

/-- The numbers of programs, each with a range of its own. -/
inductive Quantity where
  /-- The duration of a wait. -/
  | wait
  /-- A constant for the upper bits of a register. -/
  | upper
  /-- A constant for a whole register, given as a signed number or as a bit pattern. -/
  | immediate
  /-- The distance of an address from its base. -/
  | offset
  | qubit
  /-- The cycles between two bundles. -/
  | parallelism
  deriving DecidableEq, Repr

/-- The wording of a quantity. -/
def Quantity.text : Quantity → String
  | wait => "qwait"
  | upper => "ldui"
  | immediate => "32-bit immediate"
  | offset => "offset"
  | qubit => "qubit"
  | parallelism => "bundle parallelism"

/-- The least number allowed. -/
def Quantity.least : Quantity → Int
  | immediate => -0x80000000
  | offset => -0x80000000
  | _ => 0

/-- The greatest number allowed. -/
def Quantity.greatest : Quantity → Int
  | wait => 0xFFFFFFFF
  | upper => 0x7FFF
  | immediate => 0xFFFFFFFF
  | offset => 0x7FFFFFFF
  | qubit => 0x7FFFFFFFFFFFFFFF
  | parallelism => 0xFFFFFFFF

/-- What is wrong with a line. -/
inductive Problem where
  /-- Another token, or no more tokens, where the grammar asks for something. -/
  | unexpected (wanted : Expectation) (found : Option Token)
  /-- A number outside its range. -/
  | outOfRange (quantity : Quantity) (value : Int)
  /-- A label that an earlier place has. -/
  | duplicateLabel (name : String)
  /-- A label that the program ends with. -/
  | danglingLabel (name : String)
  deriving DecidableEq, Repr

/-- The wording of a problem. -/
def Problem.message : Problem → String
  | unexpected wanted _ => "expected " ++ wanted.text
  | outOfRange quantity _ =>
    s!"{quantity.text} must lie in [{quantity.least}, {quantity.greatest}]"
  | duplicateLabel name => s!"label '{name}' is already defined"
  | danglingLabel name => s!"label '{name}' is not followed by an instruction"

/-- What stands at the place of a problem. -/
def Problem.found : Problem → String
  | unexpected _ (some token) => token.text
  | unexpected _ none => "end of input"
  | outOfRange _ value => toString value
  | duplicateLabel name => name
  | danglingLabel _ => "end of input"

/-- A problem and its line. -/
structure Diagnostic where
  line : Nat
  problem : Problem
  deriving DecidableEq, Repr

/-- The wording of a diagnostic. -/
def Diagnostic.text (d : Diagnostic) : String :=
  s!"line {d.line}: {d.problem.message}, found {d.problem.found}"

end Eqasm
