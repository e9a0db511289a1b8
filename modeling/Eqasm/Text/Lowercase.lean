import Eqasm.Text.LetterCase

/-!
# Lower case

The lower-case form of a text by the rules of Unicode. Two characters need more than the table of
simple mappings: the capital I with a dot becomes two characters, and a capital sigma takes its
final form at the end of a word.
-/

namespace Eqasm.Text

/-- Whether a character lies in one of the ranges. -/
def inRanges (ranges : List (Nat × Nat)) (c : Char) : Bool :=
  ranges.any fun r => r.1 ≤ c.toNat && c.toNat ≤ r.2

/-- Whether the range maps the code point. -/
def CaseRange.covers (r : CaseRange) (n : Nat) : Bool :=
  r.first ≤ n && n ≤ r.last && (n - r.first) % r.step = 0

/-- The simple lower-case mapping. -/
def lowerChar (c : Char) : Char :=
  if c.toNat < 128 then c.toLower
  else match lowerCaseRanges.find? (·.covers c.toNat) with
    | some r => .ofNat (c.toNat + r.offset).toNat
    | none => c

/-- Whether a letter comes next, apart from characters that do not count. -/
def letterFollows (text : List Char) : Bool :=
  match text.dropWhile (inRanges caseIgnorableRanges) with
  | c :: _ => inRanges casedRanges c
  | [] => false

/-- The lower-case form of a character between what stands before it, nearest first, and what
stands behind it. -/
def lowerInContext (before : List Char) (c : Char) (behind : List Char) : List Char :=
  if c = 'Σ' then
    if letterFollows before && !letterFollows behind then ['ς'] else ['σ']
  else if c = 'İ' then ['i', '\u0307']
  else [lowerChar c]

/-- The lower-case form of a text that stands behind the characters `before`. -/
def lowerFrom (before : List Char) : List Char → List Char
  | [] => []
  | c :: rest => lowerInContext before c rest ++ lowerFrom (c :: before) rest

/-- The lower-case form of a text. -/
def lower (text : List Char) : List Char :=
  lowerFrom [] text

end Eqasm.Text
