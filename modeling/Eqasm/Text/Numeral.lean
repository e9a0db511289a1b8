/-!
# Numerals

The value of a row of digits in bases up to 16. Letters are digits in lower case.
-/

namespace Eqasm

/-- The value of a digit. -/
def digitValue (c : Char) : Nat :=
  if c.isDigit then c.toNat - '0'.toNat else c.toNat - 'a'.toNat + 10

/-- The value of a row of digits, the most significant one first. -/
def numeral (base : Nat) (digits : List Char) : Nat :=
  digits.foldl (fun n c => base * n + digitValue c) 0

/-- Whether a character is a digit in base 16. -/
def isHexDigit (c : Char) : Bool :=
  c.isDigit || ('a' ≤ c && c ≤ 'f')

/-- Whether a character is a digit in base 8. -/
def isOctalDigit (c : Char) : Bool :=
  '0' ≤ c && c ≤ '7'

/-- Whether a character is a digit in base 2. -/
def isBinaryDigit (c : Char) : Bool :=
  c = '0' || c = '1'

end Eqasm
