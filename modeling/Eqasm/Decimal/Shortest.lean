import Eqasm.Decimal.Exact

/-!
# The shortest decimal that reads back

A reader that rounds to nearest takes every decimal in an interval around a floating-point number
for that number. `Dyadic.shortest` tries the grids of 1, 2, 3, … digits; the first grid that has a
point in the interval gives the answer, of two points the nearer one and of equally near ones the
larger. `Real.text` writes it without an exponent.
-/

namespace Eqasm.Decimal

-- Powers are the ones of the core library, whatever else is in scope.
attribute [local instance (2000)] instPowNat

/-- The decimal `coefficient * 10 ^ exponent`. -/
structure Scientific where
  coefficient : Nat
  exponent : Int
  deriving DecidableEq, Repr

namespace Dyadic

/-- Whether a decimal, times `10 ^ x.places`, lies in the interval of those that round to `x`. The
two ends round to the even one of their neighbours. -/
def roundsTo (x : Dyadic) (decimal : Nat) : Bool :=
  let low := x.scaled (4 * x.significand - if x.narrow then 1 else 2)
  let high := x.scaled (4 * x.significand + 2)
  if x.significand % 2 = 0 then low ≤ decimal && decimal ≤ high
  else low < decimal && decimal < high

/-- The best decimal of `x` on the coarsest usable grid among the multiples of `10 ^ k`,
`10 ^ (k - 1)`, …, `1`, as a coefficient and its power of ten. -/
def shortestFrom (x : Dyadic) : Nat → Nat × Nat
  | 0 => (x.value, 0)
  | k + 1 =>
    let unit := 10 ^ (k + 1)
    let below := x.value / unit
    let above := below + 1
    let lowHit := 0 < below && x.roundsTo (below * unit)
    let highHit := x.roundsTo (above * unit)
    if lowHit && (!highHit || x.value - below * unit < above * unit - x.value) then (below, k + 1)
    else if highHit then (above, k + 1)
    else x.shortestFrom k

/-- The shortest decimal that rounds to `x`. -/
def shortest (x : Dyadic) : Scientific :=
  let (coefficient, k) := x.shortestFrom (Nat.toDigits 10 x.value).length
  ⟨coefficient, k - x.places⟩

end Dyadic

/-- A decimal without an exponent: the point moves into the digits or zeros are added to them. -/
def Scientific.positional (d : Scientific) : String :=
  let digits := Nat.toDigits 10 d.coefficient
  match d.exponent with
  | .ofNat n => String.ofList (digits ++ List.replicate n '0')
  | .negSucc n =>
    let padded := List.replicate (n + 2 - digits.length) '0' ++ digits
    let whole := padded.length - (n + 1)
    String.ofList (padded.take whole ++ '.' :: padded.drop whole)

/-- A floating-point number as text. -/
def Real.text : Real → String
  | .nan => "NaN"
  | .infinite negative => if negative then "-inf" else "inf"
  | .finite negative x =>
    let digits := if x.significand = 0 then "0" else x.shortest.positional
    if negative then "-" ++ digits else digits

end Eqasm.Decimal
