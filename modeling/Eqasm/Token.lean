import Eqasm.Keyword

/-!
# Tokens

The words, numbers and signs that a program text is made of. Line ends are tokens too, since an
instruction ends with its line.
-/

namespace Eqasm

/-- The kinds of registers that operands name, and qubits. -/
inductive RegisterClass where
  | general
  | single
  | pair
  | qubit
  | float
  deriving DecidableEq, Repr

/-- The letter in front of a register's number. -/
def RegisterClass.sigil : RegisterClass → Char
  | general => 'r'
  | single => 's'
  | pair => 't'
  | qubit => 'q'
  | float => 'f'

/-- The class of registers with a given letter. -/
def RegisterClass.ofSigil? : Char → Option RegisterClass
  | 'r' => some general
  | 's' => some single
  | 't' => some pair
  | 'q' => some qubit
  | 'f' => some float
  | _ => none

/-- A token. -/
inductive Token where
  | int (value : Int)
  | register (c : RegisterClass) (index : Nat)
  | keyword (k : Keyword)
  | flag (f : Flag)
  /-- The name of a label or of a quantum operation. -/
  | ident (name : String)
  | lparen | rparen | lbrace | rbrace | comma | colon | bar
  | newline
  deriving DecidableEq, Repr

/-- A token and the place where it starts. Columns count bytes and start at 1, as lines do. -/
structure Located where
  token : Token
  line : Nat
  column : Nat
  deriving DecidableEq, Repr

/-- A token and the line where it stands. -/
structure LineToken where
  token : Token
  line : Nat
  deriving DecidableEq, Repr

/-- The token and its line. -/
def Located.onLine (t : Located) : LineToken :=
  ⟨t.token, t.line⟩

namespace Token

/-! ## Meanings -/

/-- The value of an integer. -/
def int? : Token → Option Int
  | int value => some value
  | _ => none

/-- The index of a register of one class. -/
def register? (c : RegisterClass) : Token → Option Nat
  | register d index => if d = c then some index else none
  | _ => none

/-- The keyword. -/
def keyword? : Token → Option Keyword
  | keyword k => some k
  | _ => none

/-- The flag. -/
def flag? : Token → Option Flag
  | flag f => some f
  | _ => none

/-- The name. -/
def ident? : Token → Option String
  | ident name => some name
  | _ => none

/-- The target register that the token names. -/
def target? : Token → Option Target
  | register .single index => some (.single index)
  | register .pair index => some (.pair index)
  | _ => none

/-! ## Texts -/

/-- How a message shows a token. -/
def text : Token → String
  | int value => toString value
  | register c index => c.sigil.toString ++ toString index
  | keyword k => k.spelling
  | flag f => f.name
  | ident name => name
  | lparen => "'('"
  | rparen => "')'"
  | lbrace => "'\x7b'"
  | rbrace => "'\x7d'"
  | comma => "','"
  | colon => "':'"
  | bar => "'|'"
  | newline => "end of line"

/-- A dotted word with each of its parts capitalised and the dots left out. -/
def camelCase (word : String) : String :=
  String.join ((word.splitOn ".").map String.capitalize)

/-- How the log shows a token: its kind and its value. -/
def inspect : Token → String
  | int value => s!"Int({value})"
  | register c index => s!"{c.sigil.toUpper}Reg({index})"
  | keyword k => s!"Keyword({camelCase k.spelling})"
  | flag f => s!"Flag({f.name.capitalize})"
  | ident name => s!"Ident(\"{name}\")"
  | lparen => "LParen"
  | rparen => "RParen"
  | lbrace => "LBrace"
  | rbrace => "RBrace"
  | comma => "Comma"
  | colon => "Colon"
  | bar => "Bar"
  | newline => "Newline"

end Token

end Eqasm
