import Eqasm.Decimal.Exact

/-!
# Decimals with a fixed number of places

`Real.fixed` rounds the exact value of a floating-point number; a half goes to the even neighbour.
-/

namespace Eqasm.Decimal

-- Powers are the ones of the core library, whatever else is in scope.
attribute [local instance (2000)] instPowNat

/-- The integer nearest to `n / d`, of two the even one. -/
def roundHalfEven (n d : Nat) : Nat :=
  let q := n / d
  let r := n % d
  if d < 2 * r ∨ (2 * r = d ∧ q % 2 = 1) then q + 1 else q

/-- `n / 10 ^ places` written with that many places. -/
def pointed (n places : Nat) : String :=
  let digits := Nat.toDigits 10 n
  let padded := List.replicate (places + 1 - digits.length) '0' ++ digits
  let whole := padded.length - places
  if places = 0 then String.ofList padded
  else String.ofList (padded.take whole ++ '.' :: padded.drop whole)

/-- A floating-point number with `places` decimal places. -/
def Real.fixed (places : Nat) : Real → String
  | .nan => "NaN"
  | .infinite negative => if negative then "-inf" else "inf"
  | .finite negative x =>
    let digits := pointed (roundHalfEven (x.value * 10 ^ places) (10 ^ x.places)) places
    if negative then "-" ++ digits else digits

end Eqasm.Decimal
