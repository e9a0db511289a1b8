/-!
# Binary floating-point numbers as exact decimals

Every finite binary floating-point number is a finite decimal: dividing by two moves the point and
multiplies by five. `Real.ofBits` decodes an encoding of IEEE 754, and `Dyadic.scaled` gives the
integer that a power of ten times the number is. Everything that prints a number works on these
integers.
-/

namespace Eqasm.Decimal

-- Powers are the ones of the core library, whatever else is in scope.
attribute [local instance (2000)] instPowNat

/-- A binary interchange format: the widths of its fraction and of its exponent. -/
structure Format where
  fractionBits : Nat
  exponentBits : Nat

/-- Single precision, 32 bits in all. -/
def single : Format := ⟨23, 8⟩

/-- Double precision, 64 bits in all. -/
def double : Format := ⟨52, 11⟩

/-- The number `significand * 2 ^ exponent`. `narrow` holds where the next smaller number of the
format is half as far away as the next larger one. -/
structure Dyadic where
  significand : Nat
  exponent : Int
  narrow : Bool
  deriving DecidableEq, Repr

/-- What an encoding stands for. -/
inductive Real where
  | nan
  | infinite (negative : Bool)
  | finite (negative : Bool) (magnitude : Dyadic)
  deriving DecidableEq, Repr

/-- Decodes an encoding of `f`. -/
def Real.ofBits (f : Format) (bits : Nat) : Real :=
  let fraction := bits % 2 ^ f.fractionBits
  let biased := bits / 2 ^ f.fractionBits % 2 ^ f.exponentBits
  let negative := bits / 2 ^ (f.fractionBits + f.exponentBits) % 2 = 1
  let least : Int := 2 - 2 ^ (f.exponentBits - 1) - f.fractionBits
  if biased = 2 ^ f.exponentBits - 1 then
    if fraction = 0 then .infinite negative else .nan
  else if biased = 0 then
    .finite negative ⟨fraction, least, false⟩
  else
    .finite negative ⟨2 ^ f.fractionBits + fraction, least + (biased - 1),
      fraction = 0 && 1 < biased⟩

namespace Dyadic

/-- How many decimal places the quarter of a unit in the last place of `x` needs. -/
def places (x : Dyadic) : Nat :=
  (2 - x.exponent).toNat

/-- `n` quarters of a unit in the last place of `x`, times `10 ^ x.places`. -/
def scaled (x : Dyadic) (n : Nat) : Nat :=
  n * 2 ^ (x.exponent - 2).toNat * 5 ^ x.places

/-- The number itself, times `10 ^ x.places`. -/
def value (x : Dyadic) : Nat :=
  x.scaled (4 * x.significand)

end Dyadic

end Eqasm.Decimal
