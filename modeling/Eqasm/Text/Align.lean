/-!
# Columns of text

Right alignment for tables. A text that is too long keeps its length.
-/

namespace Eqasm

/-- The text filled up on the left to `width` characters. -/
def padLeft (width : Nat) (fill : Char) (text : String) : String :=
  String.ofList (List.replicate (width - text.length) fill) ++ text

/-- The text moved to the right end of a column of `width` characters. -/
def alignRight (width : Nat) (text : String) : String :=
  padLeft width ' ' text

/-- A number in hexadecimal with at least `digits` digits. -/
def hexadecimal (digits n : Nat) : String :=
  padLeft digits '0' (String.ofList (Nat.toDigits 16 n))

end Eqasm
