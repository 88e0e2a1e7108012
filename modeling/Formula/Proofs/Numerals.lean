import Formula.Expr.Printer
import Formula.Proofs.Spelling

/-! The text of a number is a number that can be read, with a minus before it if it is negative.

A decimal written with all its places has digits before the point, and digits after it
or no point (`Decimal.isNumber_positional`): zeros make up for the places that its own
digits do not reach. A float that is finite does not have the exponent that is left to
the infinities and the NaNs, so such a decimal is its text, but for the sign
(`Expr.numberText_of_isFinite`). -/
namespace Formula

/-! ### All the places of a decimal -/

namespace Decimal

theorem isDigits_toDigits (n : Nat) : IsDigits (Nat.toDigits 10 n) :=
  fun _ hc => Nat.isDigit_of_mem_toDigits (by decide) (Nat.le_refl 10) hc

theorem isDigits_zeros (count : Nat) : IsDigits (List.replicate count '0') := by
  intro c hc
  rw [List.eq_of_mem_replicate hc]
  decide

variable (d : Decimal)

theorem isDigits_expanded : IsDigits d.expanded := by
  unfold IsDigits expanded
  rw [List.forall_mem_append, List.forall_mem_append]
  exact ⟨⟨isDigits_zeros _, isDigits_toDigits _⟩, isDigits_zeros _⟩

/-- There is a digit before the point. -/
theorem places_lt_length_expanded : d.places < d.expanded.length := by
  unfold expanded
  simp only [List.length_append, List.length_replicate]
  omega

theorem isDigits_whole : IsDigits d.whole :=
  fun c hc => d.isDigits_expanded c (List.mem_of_mem_take hc)

theorem isDigits_fraction : IsDigits d.fraction :=
  fun c hc => d.isDigits_expanded c (List.mem_of_mem_drop hc)

theorem whole_ne_nil : d.whole ≠ [] := by
  have hlt := d.places_lt_length_expanded
  have hlength : d.whole.length = d.expanded.length - d.places := by
    rw [whole, List.length_take, Nat.min_eq_left (Nat.sub_le ..)]
  intro hnil
  rw [hnil, List.length_nil] at hlength
  omega

theorem isNumber_positional : IsNumber d.positional := by
  unfold positional
  split
  · have hinteger := IsNumber.parts d.isDigits_whole d.whole_ne_nil .absent .absent
    rwa [List.append_nil, List.append_nil] at hinteger
  · have hbroken := IsNumber.parts d.isDigits_whole d.whole_ne_nil (.point d.isDigits_fraction) .absent
    rwa [List.append_nil] at hbroken

end Decimal

/-! ### The bits of a float -/

/-- The sign bit is set, be it that of a zero. -/
def signBit (value : Float) : Bool := value.toBits.toNat.testBit 63

namespace FloatShape
open Float.Model (UnpackedFloat)

/-- The greatest exponent is that of the infinities and the NaNs. -/
theorem unpack_of_exponent {bits : BitVec 64} (h : @UnpackedFloat.unpackExponent .binary64 bits = -1#11) :
    UnpackedFloat.unpack .binary64 bits =
      if @UnpackedFloat.unpackMantissa .binary64 bits = 0#52 then
        .infinity (.ofBitVec (@UnpackedFloat.unpackSign .binary64 bits))
      else .notANumber :=
  if_pos h

theorem exponent_ne_of_isFinite {value : Float} (h : value.isFinite) :
    value.toBits.toNat / hiddenBit % 2048 ≠ 2047 := by
  intro hgreatest
  have hfield : @UnpackedFloat.unpackExponent .binary64 value.toModel.toBits.toBitVec = -1#11 := by
    apply BitVec.eq_of_toNat_eq
    rw [UnpackedFloat.unpackExponent, BitVec.toNat_cast, BitVec.extractLsb_toNat, Nat.shiftRight_eq_div_pow]
    exact hgreatest
  have hunpacked : (UnpackedFloat.unpack .binary64 value.toModel.toBits.toBitVec).isFinite = true := h
  rw [unpack_of_exponent hfield] at hunpacked
  split at hunpacked
  · cases hunpacked
  · cases hunpacked

theorem ofFloat_of_isFinite {value : Float} (h : value.isFinite) :
    ∃ magnitude, ofFloat value = .finite (signBit value) magnitude := by
  have hsign : (value.toBits.toNat / (2048 * hiddenBit) % 2 == 1) = signBit value := by
    rw [signBit, Nat.testBit_eq_decide_div_mod_eq]
    rfl
  simp only [ofFloat, ofBits, if_neg (exponent_ne_of_isFinite h), hsign]
  split
  · exact ⟨_, rfl⟩
  · exact ⟨_, rfl⟩

end FloatShape

/-! ### The text of a float -/

namespace Expr

/-- The text of a number without its sign. -/
def unsignedText (value : Float) : List Char := (numberText value).dropWhile (· = '-')

theorem numberText_of_isFinite {value : Float} (h : value.isFinite) :
    IsNumber (unsignedText value) ∧
    numberText value = (if signBit value then ['-'] else []) ++ unsignedText value := by
  obtain ⟨magnitude, hshape⟩ := FloatShape.ofFloat_of_isFinite h
  have htext : numberText value =
      (if signBit value then ['-'] else []) ++ (magnitude.shortest .up).positional := by
    rw [numberText, hshape]
  have hnumber : IsNumber (magnitude.shortest .up).positional := Decimal.isNumber_positional _
  have hunsigned : unsignedText value = (magnitude.shortest .up).positional := by
    obtain ⟨c, cs, hcs, hdigit⟩ := hnumber.head
    have hminus : c ≠ '-' := by
      rintro rfl
      exact absurd hdigit (by decide)
    rw [unsignedText, htext, hcs]
    cases signBit value <;> simp [hminus]
  rw [hunsigned]
  exact ⟨hnumber, htext⟩

end Expr

end Formula
