import Eqasm.Decimal.Reading
import Eqasm.Toml.DateTime
import Eqasm.Toml.Value

/-!
# Numbers, truth values and strings

The scalar values of a document. Numbers and truth values are read from a word as a whole. A word
is a decimal with a fraction or an exponent or it is an integer, so an integer that is too large is
not read as a decimal.
-/

namespace Eqasm.Toml

/-! ## Numbers and truth values -/

/-- Digits with single underscores between them, without the underscores. -/
def joinDigits? (isDigit : Char → Bool) : List Char → Option (List Char)
  | [] => none
  | [c] => if isDigit c then some [c] else none
  | c :: '_' :: rest =>
    if isDigit c then (joinDigits? isDigit rest).map (c :: ·) else none
  | c :: rest => if isDigit c then (joinDigits? isDigit rest).map (c :: ·) else none

/-- The digits of a decimal integer, which does not begin with a zero unless it is zero. -/
def wholeDigits? : List Char → Option (List Char)
  | '0' :: _ :: _ => none
  | text => joinDigits? Char.isDigit text

/-- An integer of 64 bits. -/
def integer? (text : List Char) : Option Int :=
  let based (base : Nat) (isDigit : Char → Bool) (digits : List Char) : Option Int :=
    (joinDigits? isDigit digits).map fun digits => numeral base (digits.map Char.toLower)
  let n := match text with
    | '0' :: 'x' :: digits => based 16 (fun c => isHexDigit c.toLower) digits
    | '0' :: 'o' :: digits => based 8 isOctalDigit digits
    | '0' :: 'b' :: digits => based 2 isBinaryDigit digits
    | _ =>
      let (negative, digits) := Decimal.splitSign text
      (wholeDigits? digits).map fun digits =>
        if negative then -(numeral 10 digits : Int) else numeral 10 digits
  n.filter fun n => Int64.minValue.toInt ≤ n && n ≤ Int64.maxValue.toInt

/-- The part of a decimal behind its whole digits: the fraction, then the exponent. One of them may
be missing. -/
def fractionDigits? : List Char → Option (List Char)
  | [] => none
  | '.' :: rest => do
    let isPart (c : Char) := c.isDigit || c = '_'
    let fraction ← joinDigits? Char.isDigit (rest.takeWhile isPart)
    return '.' :: fraction ++ (← exponentDigits? (rest.dropWhile isPart))
  | rest => exponentDigits? rest
where
  /-- The exponent with its mark, if there is one. -/
  exponentDigits? : List Char → Option (List Char)
    | [] => some []
    | c :: rest =>
      let (negative, digits) := Decimal.splitSign rest
      if c = 'e' || c = 'E' then
        (joinDigits? Char.isDigit digits).map fun digits =>
          'e' :: (if negative then '-' :: digits else digits)
      else none

/-- A decimal with a fraction or an exponent, or one of the words `inf` and `nan`. A decimal that is
too large is refused, but a negative one is infinite. -/
def float? (text : List Char) : Option Float :=
  let (negative, digits) := Decimal.splitSign text
  let signed (x : Float) : Float := if negative then -x else x
  match digits with
  | ['i', 'n', 'f'] => some (signed (1 / 0))
  | ['n', 'a', 'n'] => some (signed (0 / 0))
  | _ => do
    let isPart (c : Char) := c.isDigit || c = '_'
    let whole ← wholeDigits? (digits.takeWhile isPart)
    let rest ← fractionDigits? (digits.dropWhile isPart)
    let x ← Decimal.readMagnitude? (whole ++ rest)
    if x == 1 / 0 && !negative then none else some (signed x)

/-- The value that a word stands for. -/
def scalar? (text : List Char) : Option Value :=
  match text with
  | ['t', 'r', 'u', 'e'] => some (.boolean true)
  | ['f', 'a', 'l', 's', 'e'] => some (.boolean false)
  | _ => (integer? text).map .integer <|> (float? text).map .float

/-- Reads a number or a truth value. -/
def readWord : Reader Value := do
  let text ← Reader.row fun c => c.isAlphanum || "_+-.".contains c
  StateT.lift (scalar? text)

/-- Reads a value that is no string and has no parts. -/
def readScalar : Reader Value :=
  readDateTime *> pure .dateTime <|> readWord

/-! ## Strings -/

/-- Whether a character may stand in a document outside of line ends. -/
def isText (c : Char) : Bool :=
  c = '\t' || (' ' ≤ c && c ≠ '\x7f')

/-- Reads a line end. -/
def readNewline : Reader Unit :=
  Reader.word "\n" <|> Reader.word "\r\n"

/-- Reads blanks. -/
def readBlanks : Reader Unit := do
  let _ ← Reader.row fun c => c = ' ' || c = '\t'

/-- Reads the code of a character in `n` digits of base 16. -/
def readCode (n : Nat) : Reader Char := do
  let digits ← Reader.upTo (Reader.character fun c => isHexDigit c.toLower) n
  let code := numeral 16 (digits.map Char.toLower)
  if digits.length = n ∧ code.isValidChar then return .ofNat code else failure

/-- Reads a character behind a backslash. -/
def readEscaped : Reader Char := do
  match ← Reader.character fun _ => true with
  | 'b' => return '\x08'
  | 't' => return '\t'
  | 'n' => return '\n'
  | 'f' => return '\x0c'
  | 'r' => return '\r'
  | '"' => return '"'
  | '\\' => return '\\'
  | 'u' => readCode 4
  | 'U' => readCode 8
  | _ => failure

/-- Reads a character of a string in double quotes. -/
def readBasicCharacter : Reader Char :=
  Reader.character (fun c => isText c && c ≠ '"' && c ≠ '\\') <|>
    Reader.word "\\" *> readEscaped

/-- Reads a character of a string in single quotes. -/
def readLiteralCharacter : Reader Char :=
  Reader.character fun c => isText c && c ≠ '\''

/-- Reads a string on one line. -/
def readLineString : Reader String :=
  let within (quote : String) (item : Reader Char) : Reader String := do
    Reader.word quote
    let text ← Reader.many item
    Reader.word quote
    return String.ofList text
  within "\"" readBasicCharacter <|> within "'" readLiteralCharacter

/-- Reads a backslash at the end of a line, with all blanks and line ends behind it. -/
def readContinuation : Reader Unit := do
  Reader.word "\\"
  readBlanks
  readNewline
  let _ ← Reader.many (readNewline <|> Reader.word " " <|> Reader.word "\t")

/-- Reads a string between three quotes each. A line end right behind the opening quotes does not
count, and one or two quotes may stand in front of the closing ones. -/
def readLongString (quote : Char) (item : Reader (List Char)) : Reader String := do
  let mark (n : Nat) := String.ofList (List.replicate n quote)
  Reader.word (mark 3)
  readNewline <|> pure ()
  let lone : Reader (List Char) := do
    Reader.except (mark 3)
    Reader.word (mark 1)
    return [quote]
  let line : Reader (List Char) := do
    readNewline
    return ['\n']
  let text ← Reader.many (item <|> line <|> lone)
  let last ←
    (Reader.word (mark 5) *> pure [quote, quote]) <|> (Reader.word (mark 4) *> pure [quote]) <|>
      (Reader.word (mark 3) *> pure [])
  return String.ofList (text.flatten ++ last)

/-- Reads a string. -/
def readString : Reader String :=
  readLongString '"' ((readContinuation *> pure []) <|> (return [← readBasicCharacter])) <|>
    readLongString '\'' (return [← readLiteralCharacter]) <|> readLineString

end Eqasm.Toml
