import Formula.Json.Number

/-! Which numbers of JSON are integers.

A number is an integer by the way it is written: digits and nothing else, no sign, no point
and no exponent. While its digits fit a word none of them is lost, so such a number has the
value of its digits, and as soon as one of them does not fit it is a float
(`Json.Number.value?_eq_unsigned_iff`). -/
namespace Formula.Json.Number

theorem le_ofDigitChars (coefficient : Nat) (digits : List Char) :
    coefficient ≤ Nat.ofDigitChars 10 digits coefficient := by
  induction digits generalizing coefficient with
  | nil => exact Nat.le_refl coefficient
  | cons digit rest ih =>
    rw [Nat.ofDigitChars_cons]
    exact Nat.le_trans (by omega) (ih _)

/-- While the number fits a word, every digit is taken. -/
theorem ofWhole_of_lt {coefficient : Nat} {digits : List Char}
    (h : Nat.ofDigitChars 10 digits coefficient < 0x10000000000000000) :
    ofWhole coefficient digits = ⟨Nat.ofDigitChars 10 digits coefficient, 0⟩ := by
  induction digits generalizing coefficient with
  | nil => rfl
  | cons digit rest ih =>
    rw [Nat.ofDigitChars_cons] at h ⊢
    have hpush : push? coefficient digit = some (10 * coefficient + (digit.toNat - '0'.toNat)) :=
      push?_eq_some_iff.mpr ⟨rfl, Nat.lt_of_le_of_lt (le_ofDigitChars _ rest) h⟩
    simp only [ofWhole, hpush]
    exact ih h

/-- A number that does not fit a word loses digits, of which only the number is kept. -/
theorem ofWhole_of_le {coefficient : Nat} {digits : List Char} (hfits : coefficient < 0x10000000000000000)
    (h : 0x10000000000000000 ≤ Nat.ofDigitChars 10 digits coefficient) :
    (ofWhole coefficient digits).exponent ≠ 0 := by
  induction digits generalizing coefficient with
  | nil => exact absurd hfits (Nat.not_lt.mpr h)
  | cons digit rest ih =>
    rw [Nat.ofDigitChars_cons] at h
    simp only [ofWhole]
    split
    · next next hpush =>
      obtain ⟨rfl, hnext⟩ := push?_eq_some_iff.mp hpush
      exact ih hnext h
    · show ((digit :: rest).length : Int) ≠ 0
      simp only [List.length_cons]
      omega

/-- Only what has neither sign nor point nor exponent, and keeps all its digits, is an integer. -/
theorem written_of_value? {minus : Bool} {whole : List Char} {fraction? : Option (List Char)}
    {exponent? : Option Int} {value : UInt64}
    (h : value? minus whole fraction? exponent? = some (.unsigned value)) :
    minus = false ∧ fraction? = none ∧ exponent? = none ∧ (ofWhole 0 whole).exponent = 0 ∧
      (ofWhole 0 whole).coefficient.toUInt64 = value := by
  unfold value? at h
  generalize ofWhole 0 whole = d at h ⊢
  simp only at h
  split at h
  · next hwritten =>
    obtain ⟨rfl, rfl, hexponent⟩ := hwritten
    cases minus with
    | false =>
      simp only [Bool.not_false, if_true, Option.some.injEq, Json.unsigned.injEq] at h
      exact ⟨rfl, rfl, rfl, hexponent, h⟩
    | true =>
      simp only [Bool.not_true, Bool.false_eq_true, if_false] at h
      split at h
      · cases h
      · cases h
  · obtain ⟨x, -, hx⟩ := Option.map_eq_some_iff.mp h
    cases hx

/-- A number is an integer if it is written as one: no sign, no point, no exponent, and a value that fits a word. -/
theorem value?_eq_unsigned_iff {minus : Bool} {whole : List Char} {fraction? : Option (List Char)}
    {exponent? : Option Int} {value : UInt64} :
    value? minus whole fraction? exponent? = some (.unsigned value) ↔
      minus = false ∧ fraction? = none ∧ exponent? = none ∧ Nat.ofDigitChars 10 whole 0 = value.toNat := by
  constructor
  · intro h
    obtain ⟨hminus, hfraction, hexponent, hkept, hvalue⟩ := written_of_value? h
    have hfits : Nat.ofDigitChars 10 whole 0 < 0x10000000000000000 := by
      refine Nat.lt_of_not_le fun hle => ?_
      exact ofWhole_of_le (by decide) hle hkept
    rw [ofWhole_of_lt hfits] at hvalue
    exact ⟨hminus, hfraction, hexponent, hvalue ▸ (UInt64.toNat_ofNat_of_lt' hfits).symm⟩
  · rintro ⟨rfl, rfl, rfl, hvalue⟩
    have hfits : Nat.ofDigitChars 10 whole 0 < 0x10000000000000000 := hvalue ▸ value.toNat_lt
    simp only [value?, ofWhole_of_lt hfits, hvalue]
    simp

end Formula.Json.Number
