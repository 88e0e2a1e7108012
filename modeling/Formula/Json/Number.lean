import Formula.Decimal.Basic
import Formula.Json.Basic

/-! JSON numbers.

The digits of a number are gathered into a coefficient of 64 bits. Digits of the
whole part that come after it is full count as powers of ten, those of the
fraction are dropped. A number without fraction and exponent that fits a word is
an integer, but for the zero with a sign. Anything else is a float: the
coefficient, which is rounded once, times or over a power of ten, which rounds
again. A number too great for a float is refused. -/
namespace Formula.Json.Number

/-- Appends a digit to a coefficient that has room for it, in a word of 64 bits. -/
def push? (coefficient : Nat) (digit : Char) : Option Nat :=
  let next := 10 * coefficient + (digit.toNat - '0'.toNat)
  if next >>> 64 = 0 then some next else none

theorem push?_eq_some_iff {coefficient next : Nat} {digit : Char} :
    push? coefficient digit = some next ↔
      10 * coefficient + (digit.toNat - '0'.toNat) = next ∧ next < 0x10000000000000000 := by
  have hword : ∀ n : Nat, n >>> 64 = 0 ↔ n < 0x10000000000000000 := fun n => by
    rw [Nat.shiftRight_eq_div_pow, Nat.div_eq_zero_iff_lt (by decide)]
  simp only [push?, Option.ite_none_right_eq_some, Option.some.injEq, hword]
  exact ⟨fun ⟨hlt, hnext⟩ => ⟨hnext, hnext ▸ hlt⟩, fun ⟨hnext, hlt⟩ => ⟨hnext ▸ hlt, hnext⟩⟩

/-- Appends digits before the point. -/
def ofWhole (coefficient : Nat) : List Char → Decimal
  | [] => ⟨coefficient, 0⟩
  | digit :: rest =>
    match push? coefficient digit with
    | some next => ofWhole next rest
    | none => ⟨coefficient, (digit :: rest).length⟩

/-- Appends digits after the point. -/
def addFraction (d : Decimal) : List Char → Decimal
  | [] => d
  | digit :: rest =>
    match push? d.coefficient digit with
    | some next => addFraction ⟨next, d.exponent - 1⟩ rest
    | none => d

/-- The greatest power of ten that a float holds. -/
def maxPower : Nat := 308

/-- `x · 10 ^ exponent`, unless it is infinite. A division by a greater power is done in steps. -/
def scale? (x : Float) (exponent : Int) : Option Float :=
  if _ : exponent < -maxPower then
    if x == 0 then some x else scale? (x / .ofScientific 1 false maxPower) (exponent + maxPower)
  else if exponent < 0 then some (x / .ofScientific 1 false exponent.natAbs)
  else if exponent ≤ maxPower then
    let product := x * .ofScientific 1 false exponent.natAbs
    if product.isInf then none else some product
  else if x == 0 then some x
  else none
termination_by exponent.natAbs
decreasing_by
  simp only [maxPower] at *
  omega

/-- The value of a number from what is written: whether there is a minus, the digits before the
point, those after it and the number behind the mark of the exponent. -/
def value? (minus : Bool) (whole : List Char) (fraction? : Option (List Char))
    (exponent? : Option Int) : Option Json :=
  let signed (x : Float) : Json := .float (if minus then -x else x)
  let d := ofWhole 0 whole
  if fraction? = none ∧ exponent? = none ∧ d.exponent = 0 then
    if !minus then some (.unsigned d.coefficient.toUInt64)
    else if 0 < d.coefficient ∧ d.coefficient ≤ 0x8000000000000000 then
      some (.negative d.coefficient)
    else some (signed d.coefficient.toUInt64.toFloat)
  else
    let d := addFraction d (fraction?.getD [])
    (scale? d.coefficient.toUInt64.toFloat (d.exponent + exponent?.getD 0)).map signed

end Formula.Json.Number
