import Eqasm.Text.Numeral

/-!
# Reading decimal numbers

`readFloat?` reads a decimal with an optional sign, point and exponent, or one of the words
`inf`, `infinity` and `nan` in any letter case, and rounds it to double precision.
-/

namespace Eqasm.Decimal

/-- The double nearest to `coefficient * 10 ^ exponent`. Outside of 10 ^ -400 to 10 ^ 400 the
answer is zero or infinite whatever the digits are, and no large power is computed. -/
def roundToFloat (coefficient : Nat) (exponent : Int) : Float :=
  let magnitude := exponent + (Nat.toDigits 10 coefficient).length
  if coefficient = 0 ∨ magnitude < -400 then 0
  else if 400 < magnitude then 1 / 0
  else .ofScientific coefficient (exponent < 0) exponent.natAbs

/-- Splits a leading sign off: whether it is a minus, and the rest. -/
def splitSign : List Char → Bool × List Char
  | '-' :: rest => (true, rest)
  | '+' :: rest => (false, rest)
  | rest => (false, rest)

/-- Reads `e` or `E` and a signed number, up to the end. No text is the exponent zero. -/
def readExponent? : List Char → Option Int
  | [] => some 0
  | c :: rest =>
    let (negative, digits) := splitSign rest
    if (c = 'e' || c = 'E') && !digits.isEmpty && digits.all Char.isDigit then
      some (if negative then -numeral 10 digits else numeral 10 digits)
    else
      none

/-- Reads an unsigned decimal. One of the parts around the point may be empty. -/
def readMagnitude? (text : List Char) : Option Float :=
  let whole := text.takeWhile Char.isDigit
  let rest := text.dropWhile Char.isDigit
  let (fraction, rest) := match rest with
    | '.' :: r => (r.takeWhile Char.isDigit, r.dropWhile Char.isDigit)
    | r => ([], r)
  if whole.isEmpty && fraction.isEmpty then none
  else (readExponent? rest).map fun exponent =>
    roundToFloat (numeral 10 (whole ++ fraction)) (exponent - fraction.length)

/-- Reads a double. -/
def readFloat? (text : String) : Option Float :=
  let (negative, digits) := splitSign text.toList
  let magnitude := match String.ofList (digits.map Char.toLower) with
    | "inf" | "infinity" => some (1 / 0)
    | "nan" => some (0 / 0)
    | _ => readMagnitude? digits
  magnitude.map fun x => if negative then -x else x

end Eqasm.Decimal
