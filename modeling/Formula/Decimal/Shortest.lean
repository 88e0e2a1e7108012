import Formula.Decimal.Basic

/-! The shortest decimal that stands for a double-precision float.

Every real number near a float is read as that float: those up to half way to its
two neighbours, the half-way points included if its significand is even. Of the
decimals among them we want one with the fewest digits, and of these the one
nearest to the float. A decimal has few digits if it lies on a coarse grid of
powers of ten, so the grids are tried from the coarsest, each at the two points
around the float. All comparisons are between natural numbers. -/
namespace Formula

/-- A float that is neither infinite nor a NaN, but for its sign: `significand · 2 ^ exponent`. -/
structure Magnitude where
  significand : Nat
  exponent : Int
  /-- The next smaller float is half as far away as the next greater one. -/
  narrow : Bool
deriving DecidableEq, Repr

/-- What the bits of a float say. -/
inductive FloatShape where
  | nan
  | infinite (negative : Bool)
  | finite (negative : Bool) (magnitude : Magnitude)
deriving DecidableEq, Repr

namespace FloatShape

/-- The least significand of a float that has all its digits, the 52nd power of two. -/
def hiddenBit : Nat := 0x10000000000000

/-- The fields of the format: a sign bit, eleven bits of exponent and 52 of significand. -/
def ofBits (bits : Nat) : FloatShape :=
  let negative := bits / (2048 * hiddenBit) % 2 == 1
  let exponent : Nat := bits / hiddenBit % 2048
  let fraction := bits % hiddenBit
  if exponent = 2047 then if fraction = 0 then .infinite negative else .nan
  else if exponent = 0 then .finite negative ⟨fraction, -1074, false⟩
  else .finite negative ⟨hiddenBit + fraction, (exponent : Int) - 1075, fraction == 0 && 1 < exponent⟩

def ofFloat (x : Float) : FloatShape := ofBits x.toBits.toNat

end FloatShape

/-- Which of two decimals that are equally near is taken. -/
inductive Tie where
  | up
  | even
deriving DecidableEq, Repr

namespace Magnitude

variable (m : Magnitude)

/-- Lengths are counted in quarters of the distance to the next greater float. -/
def quarter : Int := m.exponent - 2

/-- A number of quarters as a multiple of a unit that it shares with the grid of `10 ^ k`. -/
def scaled (k : Int) (quarters : Nat) : Nat :=
  quarters * Nat.pow 2 m.quarter.toNat * Nat.pow 10 (-k).toNat

/-- The distance of the grid points, in the same unit. -/
def spacing (k : Int) : Nat := Nat.pow 10 k.toNat * Nat.pow 2 (-m.quarter).toNat

/-- The float itself, in quarters. -/
def centre : Nat := 4 * m.significand

/-- Whether the decimal `coefficient · 10 ^ k` is read as this float. -/
def covers (coefficient : Nat) (k : Int) : Bool :=
  let point := coefficient * m.spacing k
  let low := m.scaled k (m.centre - if m.narrow then 1 else 2)
  let high := m.scaled k (m.centre + 2)
  if m.significand % 2 = 0 then low ≤ point ∧ point ≤ high else low < point ∧ point < high

/-- Of the grid points just below and just above the float, the nearer of those read as it. -/
def onGrid? (tie : Tie) (k : Int) : Option Decimal :=
  let below := m.scaled k m.centre / m.spacing k
  let offset := m.scaled k m.centre % m.spacing k
  let takesBelow := 2 * offset < m.spacing k ∨
    2 * offset = m.spacing k ∧ tie = .even ∧ below % 2 = 0
  match m.covers below k, m.covers (below + 1) k with
  | false, false => none
  | true, false => some ⟨below, k⟩
  | false, true => some ⟨below + 1, k⟩
  | true, true => if takesBelow then some ⟨below, k⟩ else some ⟨below + 1, k⟩

/-- The float itself: a power of two is one of five over a power of ten. -/
def exact : Decimal :=
  ⟨m.significand * Nat.pow 2 m.exponent.toNat * Nat.pow 5 (-m.exponent).toNat,
    -((-m.exponent).toNat : Int)⟩

/-- Exponents of grids, from one that is coarser than the float is large down to one whose points
are closer than the floats. -/
def grids : List Int :=
  let coarsest := (m.significand.log2 + 1 + m.exponent) * 30103 / 100000 + 1
  (List.range 20).map fun n : Nat => coarsest - n

def shortest (tie : Tie) : Decimal :=
  let found := (m.grids.findSome? (m.onGrid? tie)).getD m.exact
  .reduce found.coefficient found.exponent

end Magnitude

end Formula
