import Eqasm.Text.Numeral

/-!
# Reading unsigned integers

A text of digits in base 10 or 16 that a plus sign may precede. Digits are read from the left, and
the first that is none or that makes the number too large decides what is wrong.
-/

namespace Eqasm.Text

/-- Why a text is no unsigned integer. -/
inductive IntegerError where
  | empty
  | invalidDigit
  | tooLarge
  deriving DecidableEq, Repr

/-- The wording of an error. -/
def IntegerError.message : IntegerError → String
  | empty => "cannot parse integer from empty string"
  | invalidDigit => "invalid digit found in string"
  | tooLarge => "number too large to fit in target type"

/-- Whether a character is a digit of a base up to 16, in any letter case. -/
def isDigitOf (base : Nat) (c : Char) : Bool :=
  isHexDigit c.toLower && digitValue c.toLower < base

/-- Reads digits behind others that have the value `n`. Integers have 64 bits. -/
def readDigits (base n : Nat) : List Char → Except IntegerError Nat
  | [] => .ok n
  | c :: rest =>
    if isDigitOf base c then
      let next := base * n + digitValue c.toLower
      if next ≤ 0xFFFFFFFFFFFFFFFF then readDigits base next rest else .error .tooLarge
    else .error .invalidDigit

/-- Reads an integer. -/
def readUnsigned (base : Nat) : List Char → Except IntegerError Nat
  | [] => .error .empty
  | '+' :: c :: rest => readDigits base 0 (c :: rest)
  | text => readDigits base 0 text

end Eqasm.Text
