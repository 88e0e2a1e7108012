import Mathlib.Algebra.Order.Field.Power
import Mathlib.Algebra.Order.Field.Rat
import Mathlib.Tactic.Linarith
import Mathlib.Tactic.NormNum
import Mathlib.Tactic.Positivity
import Mathlib.Tactic.Ring
import Formula.Proofs.Layout
import Formula.Proofs.Numerals

/-! The text of a finite float tells the float.

A float is printed as a decimal that is read as it: a candidate lies within the half-way
points to the neighbours (`Magnitude.covers_iff`), and if there is none, the float itself
is printed. What is read as one float is not read as another (`Magnitude.Apart`): with
the same exponent there is at least one step between the significands, and a greater
exponent makes the steps at least twice as long. The places of a decimal tell its value,
so they tell the significand and the exponent, which together with the sign are all that
the bits say (`Expr.unsignedText_inj`). -/
namespace Formula

theorem pow_toNat_eq {b : ℚ} (hb : b ≠ 0) (i : Int) : b ^ i.toNat = b ^ i * b ^ (-i).toNat := by
  rw [← zpow_natCast, ← zpow_natCast, ← zpow_add₀ hb]
  congr 1
  omega

/-! ### The value of a decimal -/

namespace Decimal

/-- The number that a decimal stands for. -/
def value (d : Decimal) : ℚ := d.coefficient * 10 ^ d.exponent

theorem value_reduce (coefficient : Nat) (exponent : Int) :
    (reduce coefficient exponent).value = coefficient * 10 ^ exponent := by
  fun_induction reduce coefficient exponent with
  | case1 exponent => simp [value]
  | case2 coefficient exponent hne hzero ih =>
    have htens : ((coefficient / 10 : Nat) : ℚ) * 10 = coefficient := by
      exact_mod_cast Nat.div_mul_cancel (Nat.dvd_of_mod_eq_zero hzero)
    rw [ih, zpow_add_one₀ (by decide), ← htens]
    ring
  | case3 coefficient exponent hne hdigit => rfl

variable {a b : Decimal} (d : Decimal)

theorem ofDigitChars_expanded :
    Nat.ofDigitChars 10 d.expanded 0 = 10 ^ d.exponent.toNat * d.coefficient := by
  unfold expanded
  rw [Nat.ofDigitChars_append, Nat.ofDigitChars_append, Nat.ofDigitChars_replicate_zero,
    Nat.ofDigitChars_replicate_zero, Nat.mul_zero, digits, Nat.ofDigitChars_ten_toDigits]

theorem value_mul_places : d.value * 10 ^ d.places = (Nat.ofDigitChars 10 d.expanded 0 : ℕ) := by
  rw [ofDigitChars_expanded, value, places]
  push_cast
  rw [pow_toNat_eq (by decide) d.exponent]
  ring

theorem whole_append_fraction : d.whole ++ d.fraction = d.expanded := List.take_append_drop ..

theorem length_fraction : d.fraction.length = d.places := by
  have hlt := d.places_lt_length_expanded
  rw [fraction, List.length_drop]
  omega

/-- The digits of a text of all places up to the point are the whole, and the others the fraction. -/
theorem span_positional : d.positional.takeWhile Char.isDigit = d.whole ∧
    (d.positional.dropWhile Char.isDigit).drop 1 = d.fraction := by
  unfold positional
  split
  · next hfraction =>
    have hspan := span_append (p := Char.isDigit) (b := []) d.isDigits_whole (fun _ h => nomatch h)
    rw [List.append_nil] at hspan
    rw [hspan.1, hspan.2, hfraction]
    exact ⟨rfl, rfl⟩
  · have hspan := span_append (p := Char.isDigit) (b := '.' :: d.fraction) d.isDigits_whole
      (by rintro c ⟨⟩; decide)
    rw [hspan.1, hspan.2]
    exact ⟨rfl, rfl⟩

theorem value_eq_of_positional (h : a.positional = b.positional) : a.value = b.value := by
  have hwhole : a.whole = b.whole := by rw [← a.span_positional.1, h, b.span_positional.1]
  have hfraction : a.fraction = b.fraction := by rw [← a.span_positional.2, h, b.span_positional.2]
  have hexpanded : a.expanded = b.expanded := by
    rw [← a.whole_append_fraction, hwhole, hfraction, b.whole_append_fraction]
  have hplaces : a.places = b.places := by rw [← a.length_fraction, hfraction, b.length_fraction]
  have hvalue := a.value_mul_places
  rw [hexpanded, ← b.value_mul_places, hplaces] at hvalue
  exact mul_right_cancel₀ (pow_ne_zero _ (by decide)) hvalue

end Decimal

namespace Magnitude

/-! ### Reading a number -/

section
variable (m : Magnitude)

/-- The half-way point to the next smaller float. -/
def low : ℚ := (m.centre - if m.narrow then 1 else 2 : ℕ) * 2 ^ m.quarter

/-- The half-way point to the next greater float. -/
def high : ℚ := (m.centre + 2 : ℕ) * 2 ^ m.quarter

/-- The number is read as the float: it is nearer to it than to the neighbours, or half way to one of
them and the significand is even. -/
def Reads (x : ℚ) : Prop :=
  if m.significand % 2 = 0 then m.low ≤ x ∧ x ≤ m.high else m.low < x ∧ x < m.high

theorem scaled_eq (k : Int) (quarters : Nat) :
    (m.scaled k quarters : ℚ) = quarters * 2 ^ m.quarter * (2 ^ (-m.quarter).toNat * 10 ^ (-k).toNat) := by
  simp only [scaled, Nat.pow_eq]
  push_cast
  rw [pow_toNat_eq (by decide) m.quarter]
  ring

theorem mul_spacing_eq (k : Int) (coefficient : Nat) : ((coefficient * m.spacing k : ℕ) : ℚ) =
    coefficient * 10 ^ k * (2 ^ (-m.quarter).toNat * 10 ^ (-k).toNat) := by
  simp only [spacing, Nat.pow_eq]
  push_cast
  rw [pow_toNat_eq (by decide) k]
  ring

/-- The comparisons of natural numbers are those of the numbers they stand for, in a common unit. -/
theorem covers_iff (coefficient : Nat) (k : Int) :
    m.covers coefficient k = true ↔ m.Reads (coefficient * 10 ^ k) := by
  have hunit : (0 : ℚ) < 2 ^ (-m.quarter).toNat * 10 ^ (-k).toNat := by positivity
  have hle : ∀ a b : ℕ, a ≤ b ↔ (a : ℚ) ≤ b := fun a b => Nat.cast_le.symm
  have hlt : ∀ a b : ℕ, a < b ↔ (a : ℚ) < b := fun a b => Nat.cast_lt.symm
  simp only [covers, Reads, low, high]
  split
  · rw [decide_eq_true_iff, hle, hle, scaled_eq, scaled_eq, mul_spacing_eq, mul_le_mul_iff_left₀ hunit,
      mul_le_mul_iff_left₀ hunit]
  · rw [decide_eq_true_iff, hlt, hlt, scaled_eq, scaled_eq, mul_spacing_eq, mul_lt_mul_iff_left₀ hunit,
      mul_lt_mul_iff_left₀ hunit]

theorem covers_of_onGrid? {tie : Tie} {k : Int} {d : Decimal} (h : m.onGrid? tie k = some d) :
    m.covers d.coefficient d.exponent = true := by
  simp only [onGrid?] at h
  split at h
  · cases h
  · next hbelow habove => cases h; exact hbelow
  · next hbelow habove => cases h; exact habove
  · next hbelow habove =>
    split at h
    · cases h; exact hbelow
    · cases h; exact habove

theorem value_exact : m.exact.value = m.significand * 2 ^ m.exponent := by
  have htens : (2 : ℚ) ^ (-m.exponent).toNat * 5 ^ (-m.exponent).toNat * 10 ^ (-((-m.exponent).toNat : Int)) = 1 := by
    rw [← mul_pow, zpow_neg, zpow_natCast, show (2 : ℚ) * 5 = 10 by norm_num]
    exact mul_inv_cancel₀ (pow_ne_zero _ (by decide))
  simp only [exact, Decimal.value, Nat.pow_eq]
  push_cast
  rw [pow_toNat_eq (by decide) m.exponent]
  calc (m.significand : ℚ) * (2 ^ m.exponent * 2 ^ (-m.exponent).toNat) * 5 ^ (-m.exponent).toNat *
        10 ^ (-((-m.exponent).toNat : Int))
      = m.significand * 2 ^ m.exponent * (2 ^ (-m.exponent).toNat * 5 ^ (-m.exponent).toNat *
        10 ^ (-((-m.exponent).toNat : Int))) := by ring
    _ = m.significand * 2 ^ m.exponent := by rw [htens, mul_one]

theorem centre_eq : (m.centre : ℚ) * 2 ^ m.quarter = m.significand * 2 ^ m.exponent := by
  rw [quarter, centre, zpow_sub₀ (by decide)]
  push_cast
  ring

theorem reads_exact : m.Reads m.exact.value := by
  have hquarter : (0 : ℚ) < 2 ^ m.quarter := by positivity
  have hhigh : m.exact.value < m.high := by
    rw [value_exact, ← centre_eq, high]
    exact mul_lt_mul_of_pos_right (by push_cast; linarith) hquarter
  rw [Reads]
  split
  · refine ⟨?_, hhigh.le⟩
    rw [value_exact, ← centre_eq, low]
    exact mul_le_mul_of_nonneg_right (Nat.cast_le.mpr (Nat.sub_le ..)) hquarter.le
  · next hodd =>
    refine ⟨?_, hhigh⟩
    rw [value_exact, ← centre_eq, low]
    refine mul_lt_mul_of_pos_right (Nat.cast_lt.mpr (Nat.sub_lt ?_ ?_)) hquarter
    · rw [centre]
      omega
    · split <;> decide

/-- What is printed is read as the float, whether a grid has such a point or not. -/
theorem reads_shortest (tie : Tie) : m.Reads (m.shortest tie).value := by
  simp only [shortest, Decimal.value_reduce]
  cases hfound : m.grids.findSome? (m.onGrid? tie) with
  | none => exact m.reads_exact
  | some d =>
    obtain ⟨k, -, hgrid⟩ := List.exists_of_findSome?_eq_some hfound
    exact (m.covers_iff ..).mp (m.covers_of_onGrid? hgrid)

/-- What the format allows: the significand has all its digits, or the exponent is the least one. -/
structure Proper : Prop where
  significand_lt : m.significand < 2 * FloatShape.hiddenBit
  exponent : m.exponent = -1074 ∨ -1074 < m.exponent ∧ FloatShape.hiddenBit ≤ m.significand
  narrow : m.narrow = true ↔ -1074 < m.exponent ∧ m.significand = FloatShape.hiddenBit

end

/-! ### Two floats -/

variable {a b m : Magnitude} {x : ℚ}

theorem Reads.bounds (h : m.Reads x) :
    m.low ≤ x ∧ x ≤ m.high ∧ (m.significand % 2 = 1 → m.low < x ∧ x < m.high) := by
  rw [Reads] at h
  split at h
  · next heven => exact ⟨h.1, h.2, fun hodd => absurd (heven.symm.trans hodd) (by decide)⟩
  · exact ⟨h.1.le, h.2.le, fun _ => h⟩

/-- What is read as `a` ends before what is read as `b` begins, or there too if one of them leaves it out. -/
def Apart (a b : Magnitude) : Prop :=
  a.high < b.low ∨ a.high ≤ b.low ∧ (a.significand % 2 = 1 ∨ b.significand % 2 = 1)

theorem Apart.not_reads (h : Apart a b) (ha : a.Reads x) : ¬ b.Reads x := by
  intro hb
  obtain ⟨-, hhigh, hbelow⟩ := ha.bounds
  obtain ⟨hlow, -, habove⟩ := hb.bounds
  rcases h with hlt | ⟨hle, hodd | hodd⟩
  · linarith
  · linarith [(hbelow hodd).2]
  · linarith [(habove hodd).1]

/-- If they are neighbours one of the significands is odd. -/
theorem apart_of_significand_lt (he : a.exponent = b.exponent) (hs : a.significand < b.significand) :
    Apart a b := by
  have hquarter : (0 : ℚ) < 2 ^ b.quarter := by positivity
  rw [Apart, high, low, quarter, he, ← quarter]
  have hcentres : a.centre + 2 < b.centre - (if b.narrow then 1 else 2) ∨
      a.centre + 2 = b.centre - (if b.narrow then 1 else 2) ∧ (a.significand % 2 = 1 ∨ b.significand % 2 = 1) := by
    simp only [centre]
    split <;> omega
  rcases hcentres with hlt | ⟨heq, hodd⟩
  · exact .inl (mul_lt_mul_of_pos_right (Nat.cast_lt.mpr hlt) hquarter)
  · exact .inr ⟨by rw [heq], hodd⟩

/-- If they are neighbours the smaller one has the greatest significand, which is odd. -/
theorem apart_of_exponent_lt (ha : a.Proper) (hb : b.Proper) (he : a.exponent < b.exponent) : Apart a b := by
  have hsteps : (2 : ℚ) * 2 ^ a.quarter ≤ 2 ^ b.quarter := by
    rw [← zpow_one_add₀ (by decide)]
    refine zpow_le_zpow_right₀ (by norm_num) ?_
    simp only [quarter]
    omega
  have hquarter : (0 : ℚ) < 2 ^ a.quarter := by positivity
  have hlow : ((2 * (b.centre - if b.narrow then 1 else 2) : ℕ) : ℚ) * 2 ^ a.quarter ≤ b.low := by
    rw [low, Nat.cast_mul, Nat.cast_two, mul_comm (2 : ℚ), mul_assoc]
    exact mul_le_mul_of_nonneg_left hsteps (Nat.cast_nonneg _)
  have hleast : -1074 ≤ a.exponent := by
    rcases ha.exponent with h | h <;> omega
  obtain ⟨hexponent, hfull⟩ := hb.exponent.resolve_left (by omega)
  have hcentres : a.centre + 2 < 2 * (b.centre - if b.narrow then 1 else 2) ∨
      a.centre + 2 = 2 * (b.centre - if b.narrow then 1 else 2) ∧ a.significand % 2 = 1 := by
    have hlt := ha.significand_lt
    simp only [centre, hb.narrow, hexponent, true_and, FloatShape.hiddenBit] at hlt hfull ⊢
    split <;> omega
  rcases hcentres with hlt | ⟨heq, hodd⟩
  · exact .inl (lt_of_lt_of_le (mul_lt_mul_of_pos_right (Nat.cast_lt.mpr hlt) hquarter) hlow)
  · refine .inr ⟨?_, .inl hodd⟩
    rw [high, heq]
    exact hlow

/-- A number is read as one float at most. -/
theorem eq_of_reads (ha : a.Proper) (hb : b.Proper) (hx : a.Reads x) (hy : b.Reads x) :
    a.exponent = b.exponent ∧ a.significand = b.significand := by
  rcases lt_trichotomy a.exponent b.exponent with hlt | heq | hgt
  · exact absurd hy ((apart_of_exponent_lt ha hb hlt).not_reads hx)
  · rcases lt_trichotomy a.significand b.significand with hlt | hsignificand | hgt
    · exact absurd hy ((apart_of_significand_lt heq hlt).not_reads hx)
    · exact ⟨heq, hsignificand⟩
    · exact absurd hx ((apart_of_significand_lt heq.symm hgt).not_reads hy)
  · exact absurd hx ((apart_of_exponent_lt hb ha hgt).not_reads hy)

end Magnitude

/-! ### The bits of a finite float -/

namespace FloatShape
variable {bits : Nat} {negative : Bool} {m : Magnitude}

theorem proper_of_ofBits (h : ofBits bits = .finite negative m) : m.Proper := by
  have hfraction : bits % hiddenBit < hiddenBit := Nat.mod_lt _ (by decide)
  simp only [ofBits] at h
  split at h
  · split at h <;> cases h
  · split at h
    · cases h
      refine ⟨?_, .inl rfl, ?_⟩
      · dsimp only
        omega
      · simp
    · next hexponent =>
      cases h
      refine ⟨?_, ?_, ?_⟩
      · dsimp only
        omega
      · dsimp only
        omega
      · simp only [Bool.and_eq_true, beq_iff_eq, decide_eq_true_eq]
        omega

/-- The bits put together again: only a significand with all its digits counts in the exponent. -/
def bitsOf (negative : Bool) (significand : Nat) (exponent : Int) : Nat :=
  negative.toNat * (2048 * hiddenBit) +
    if significand < hiddenBit then significand else (exponent + 1074).toNat * hiddenBit + significand

theorem eq_bitsOf (hbits : bits < 4096 * hiddenBit) (h : ofBits bits = .finite negative m) :
    bits = bitsOf negative m.significand m.exponent := by
  have hfraction : bits % hiddenBit < hiddenBit := Nat.mod_lt _ (by decide)
  have hsign : (bits / (2048 * hiddenBit) % 2 == 1).toNat = bits / (2048 * hiddenBit) % 2 := by
    rcases Nat.mod_two_eq_zero_or_one (bits / (2048 * hiddenBit)) with hzero | hone
    · rw [hzero]
      rfl
    · rw [hone]
      rfl
  simp only [ofBits] at h
  split at h
  · split at h <;> cases h
  · split at h
    · next hexponent =>
      cases h
      rw [bitsOf, hsign, if_pos hfraction]
      simp only [hiddenBit] at *
      omega
    · next hexponent =>
      cases h
      rw [bitsOf, hsign, if_neg (Nat.not_lt.mpr (Nat.le_add_right ..))]
      simp only [hiddenBit] at *
      omega

theorem eq_of_toBits {a b : Float} (h : a.toBits = b.toBits) : a = b := by
  obtain ⟨⟨abits, ha⟩⟩ := a
  obtain ⟨⟨bbits, hb⟩⟩ := b
  obtain rfl : abits = bbits := h
  rfl

end FloatShape

/-! ### The text of a finite float -/

namespace Expr

theorem exists_magnitude_of_isFinite {value : Float} (h : value.isFinite) :
    ∃ magnitude : Magnitude, magnitude.Proper ∧ FloatShape.ofFloat value = .finite (signBit value) magnitude ∧
      unsignedText value = (magnitude.shortest .up).positional := by
  obtain ⟨magnitude, hshape⟩ := FloatShape.ofFloat_of_isFinite h
  refine ⟨magnitude, FloatShape.proper_of_ofBits hshape, hshape, ?_⟩
  obtain ⟨-, htext⟩ := numberText_of_isFinite h
  rw [numberText, hshape] at htext
  exact (List.append_cancel_left htext).symm

/-- Finite floats with the same sign and the same digits are the same, zeros included. -/
theorem unsignedText_inj {a b : Float} (ha : a.isFinite) (hb : b.isFinite) (hsign : signBit a = signBit b)
    (htext : unsignedText a = unsignedText b) : a = b := by
  obtain ⟨m, hm, hshape, hpositional⟩ := exists_magnitude_of_isFinite ha
  obtain ⟨n, hn, hother, hotherPositional⟩ := exists_magnitude_of_isFinite hb
  rw [hpositional, hotherPositional] at htext
  have hreads := m.reads_shortest .up
  rw [Decimal.value_eq_of_positional htext] at hreads
  obtain ⟨hexponent, hsignificand⟩ := Magnitude.eq_of_reads hm hn hreads (n.reads_shortest .up)
  have hbits : a.toBits.toNat = b.toBits.toNat := by
    rw [FloatShape.eq_bitsOf a.toBits.toNat_lt hshape, FloatShape.eq_bitsOf b.toBits.toNat_lt hother, hsign,
      hexponent, hsignificand]
  exact FloatShape.eq_of_toBits (UInt64.toNat_inj.mp hbits)

end Expr

end Formula
