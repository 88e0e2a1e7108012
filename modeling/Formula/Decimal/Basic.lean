/-! Decimal numbers and the two ways to write them: all places, or one digit before
the point and a power of ten. -/
namespace Formula

/-- The number `coefficient · 10 ^ exponent`. -/
structure Decimal where
  coefficient : Nat
  exponent : Int
deriving DecidableEq, Repr

namespace Decimal

/-- The same number without zeros at the end of the coefficient; zero has exponent 0. -/
def reduce (coefficient : Nat) (exponent : Int) : Decimal :=
  if h : coefficient = 0 then ⟨0, 0⟩
  else if coefficient % 10 = 0 then reduce (coefficient / 10) (exponent + 1)
  else ⟨coefficient, exponent⟩
termination_by coefficient
decreasing_by omega

variable (d : Decimal)

def digits : List Char := Nat.toDigits 10 d.coefficient

/-- The power of ten that the first digit counts. -/
def leadingExponent : Int := d.exponent + d.digits.length - 1

/-- The number of places after the point. -/
def places : Nat := (-d.exponent).toNat

/-- The digits down to the ones or the last place after the point, and up to the ones at least. -/
def expanded : List Char :=
  List.replicate (d.places + 1 - d.digits.length) '0' ++ d.digits ++
    List.replicate d.exponent.toNat '0'

/-- The digits before the point. -/
def whole : List Char := d.expanded.take (d.expanded.length - d.places)

/-- The digits after the point. -/
def fraction : List Char := d.expanded.drop (d.expanded.length - d.places)

/-- All places; an integer has no point. -/
def positional : List Char :=
  if d.fraction = [] then d.whole else d.whole ++ '.' :: d.fraction

/-- One digit, the others after a point, and the signed power of ten of the first. -/
def scientific : List Char :=
  let mantissa := if d.digits.tail = [] then d.digits else d.digits.take 1 ++ '.' :: d.digits.tail
  let sign := if d.leadingExponent < 0 then '-' else '+'
  mantissa ++ 'e' :: sign :: Nat.toDigits 10 d.leadingExponent.natAbs

end Decimal

end Formula
