import Eqasm.Text.Numeral
import Eqasm.Toml.Reader

/-!
# Dates and times

A date, a time of day, or a date with a time that may have an offset. Numbers have a fixed count of
digits and stay within the bounds of the calendar, so `1979-02-29` is no date and `24:00:00` is no
time; a second of 60 is allowed.
-/

namespace Eqasm.Toml

/-- Reads a number of `count` digits between two bounds. -/
def readBounded (count least greatest : Nat) : Reader Nat := do
  let digits ← Reader.upTo (Reader.character Char.isDigit) count
  let n := numeral 10 digits
  if digits.length = count ∧ least ≤ n ∧ n ≤ greatest then return n else failure

/-- The number of days in a month. -/
def daysIn (year month : Nat) : Nat :=
  if month = 2 then
    if year % 4 = 0 ∧ (year % 100 ≠ 0 ∨ year % 400 = 0) then 29 else 28
  else if month ∈ [4, 6, 9, 11] then 30
  else 31

/-- Reads a date. -/
def readDate : Reader Unit := do
  let year ← readBounded 4 0 9999
  Reader.word "-"
  let month ← readBounded 2 1 12
  Reader.word "-"
  let _ ← readBounded 2 1 (daysIn year month)

/-- Reads hours and minutes. -/
def readMinutes : Reader Unit := do
  let _ ← readBounded 2 0 23
  Reader.word ":"
  let _ ← readBounded 2 0 59

/-- Reads a point and digits. -/
def readFraction : Reader Unit := do
  Reader.word "."
  let _ ← Reader.character Char.isDigit
  let _ ← Reader.row Char.isDigit

/-- Reads a time of day. -/
def readTime : Reader Unit := do
  readMinutes
  Reader.word ":"
  let _ ← readBounded 2 0 60
  readFraction <|> pure ()

/-- Reads the distance from universal time. -/
def readOffset : Reader Unit :=
  Reader.word "Z" <|> Reader.word "z" <|> (Reader.word "+" <|> Reader.word "-") *> readMinutes

/-- Reads a time behind a date. -/
def readTimeOfDate : Reader Unit := do
  Reader.word "T" <|> Reader.word "t" <|> Reader.word " "
  readTime
  readOffset <|> pure ()

/-- Reads a date, a time or both. -/
def readDateTime : Reader Unit :=
  readDate *> (readTimeOfDate <|> pure ()) <|> readTime

end Eqasm.Toml
