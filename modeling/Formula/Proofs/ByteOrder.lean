import Formula.NameMap

/-! Names in the order of their bytes.

A map keeps its names in the order of their characters. In UTF-8 a smaller character has
smaller bytes: the first byte grows with their number, and they hold the digits of the code
point, the most significant ones first. So the first character in which two names differ
decides about their bytes as well (`utf8_lt_utf8_iff`). -/
namespace Formula

/-- The bytes of a text. -/
def utf8 (text : String) : List UInt8 := text.toUTF8.data.toList

theorem utf8_eq_flatMap (text : String) : utf8 text = text.toList.flatMap String.utf8EncodeChar := by
  rw [utf8, String.toUTF8, ← String.utf8Encode_toList, List.utf8Encode, List.toList_data_toByteArray]

/-! ### Characters -/

theorem toNat_val_lt (c : Char) : c.val.toNat < 0x110000 := by
  rcases c.valid with h | ⟨-, h⟩
  · exact Nat.lt_trans h (by decide)
  · exact h

/-- The first byte decides if it differs. -/
theorem byte_cons_lt_iff {a b : Nat} {rest other : List UInt8} (ha : a < 256) (hb : b < 256) :
    UInt8.ofNat a :: rest < UInt8.ofNat b :: other ↔ a < b ∨ a = b ∧ rest < other := by
  rw [List.cons_lt_cons_iff, UInt8.lt_iff_toNat_lt, ← UInt8.toNat_inj, UInt8.toNat_ofNat_of_lt' ha,
    UInt8.toNat_ofNat_of_lt' hb]

/-- A smaller character has smaller bytes, and whatever follows makes no difference. -/
theorem utf8EncodeChar_append_lt {c d : Char} (h : c < d) (rest other : List UInt8) :
    String.utf8EncodeChar c ++ rest < String.utf8EncodeChar d ++ other := by
  have hval : c.val.toNat < d.val.toNat := UInt32.lt_iff_toNat_lt.mp h
  have hbound := toNat_val_lt d
  -- The digits of the code points, each from the one before it.
  have hdiv₂ : ∀ n, n / 4096 = n / 64 / 64 := fun n => by omega
  have hdiv₃ : ∀ n, n / 262144 = n / 64 / 64 / 64 := fun n => by omega
  simp only [String.utf8EncodeChar]
  generalize c.val.toNat = m at hval ⊢
  generalize d.val.toNat = n at hval hbound ⊢
  repeat' split
  all_goals
    simp (disch := omega) only [List.cons_append, List.nil_append, byte_cons_lt_iff, hdiv₂, hdiv₃]
    omega

/-! ### Texts -/

theorem flatMap_utf8EncodeChar_lt {cs ds : List Char} (h : cs < ds) :
    cs.flatMap String.utf8EncodeChar < ds.flatMap String.utf8EncodeChar := by
  induction cs generalizing ds with
  | nil =>
    cases ds with
    | nil => exact absurd h (List.lt_irrefl [])
    | cons d ds =>
      rw [List.flatMap_nil, List.flatMap_cons]
      obtain ⟨first, rest, hbytes⟩ := List.exists_cons_of_ne_nil (String.utf8EncodeChar_ne_nil (c := d))
      rw [hbytes]
      exact List.nil_lt_cons ..
  | cons c cs ih =>
    cases ds with
    | nil => exact absurd h (List.not_lt_nil _)
    | cons d ds =>
      rw [List.flatMap_cons, List.flatMap_cons]
      rcases List.cons_lt_cons_iff.mp h with hlt | ⟨rfl, hrest⟩
      · exact utf8EncodeChar_append_lt hlt _ _
      · exact List.append_left_lt (ih hrest)

/-- The order of names is that of their bytes. -/
theorem utf8_lt_utf8_iff {a b : String} : utf8 a < utf8 b ↔ a < b := by
  have hmono : ∀ {a b : String}, a < b → utf8 a < utf8 b := fun h => by
    rw [utf8_eq_flatMap, utf8_eq_flatMap]
    exact flatMap_utf8EncodeChar_lt (String.lt_iff.mp h)
  refine ⟨fun h => ?_, hmono⟩
  rcases Std.lt_trichotomy a b with hlt | rfl | hgt
  · exact hlt
  · exact absurd h (List.lt_irrefl _)
  · exact absurd (hmono hgt) (List.lt_asymm h)

/-- Bytes have not the order of 16-bit units, in which a surrogate pair comes before the greatest of them. -/
example : utf8 "\uffff" < utf8 "😀" := by decide

end Formula
