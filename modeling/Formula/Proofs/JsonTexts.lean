import Formula.Json.Reader
import Formula.Proofs.Integers
import Formula.Proofs.Spelling

/-! How the values of JSON are written.

The text of a value is put together from the texts of its parts, with one relation for each kind
of part: `StringText text content` says that the characters are this string in its quotes. Blanks
stand in front of a part (`Led`), and behind an item or a name. Arrays and objects nest at most
as deep as is said, so the relation for values (`ValueText`) is a recursion on this depth. Nothing
here goes through a text from the left: that a text is read as the value which is written in
it, and as no other, is proved of the readers (`Json.parse?_eq_some_iff`). -/
namespace Formula.Json

variable {α : Type}

/-! ### Blanks -/

def blanks : List Char := [' ', '\t', '\n', '\r']

def brackets : List Char := ['[', ']', '{', '}']

def Blanks (text : List Char) : Prop := ∀ c ∈ text, c ∈ blanks

theorem Blanks.nil : Blanks [] := List.forall_mem_nil _

instance (text : List Char) : Decidable (Blanks text) := List.decidableBAll _ text

/-- A part with blanks in front of it. -/
inductive Led (part : List Char → α → Prop) : List Char → α → Prop where
  | gap {gap text : List Char} {a : α} (hgap : Blanks gap) (h : part text a) : Led part (gap ++ text) a

/-! ### Strings -/

def hexDigits : List (Char × Nat) := "0123456789abcdef".toList.zipIdx ++ "0123456789ABCDEF".toList.zipIdx

/-- Four hexadecimal digits. -/
inductive UnitText : List Char → Nat → Prop where
  | digits {a b c d : Char} {i j k l : Nat} (ha : (a, i) ∈ hexDigits) (hb : (b, j) ∈ hexDigits)
      (hc : (c, k) ∈ hexDigits) (hd : (d, l) ∈ hexDigits) : UnitText [a, b, c, d] (((i * 16 + j) * 16 + k) * 16 + l)

/-- One code unit, or two surrogates for a character beyond the first plane. -/
inductive CodePointText : List Char → Char → Prop where
  | single {text : List Char} {unit : Nat} (h : UnitText text unit) (hunit : unit < 0xD800 ∨ 0xDFFF < unit) :
    CodePointText text (.ofNat unit)
  | pair {first second : List Char} {high low : Nat} (hfirst : UnitText first high) (hsecond : UnitText second low)
      (hhigh : 0xD800 ≤ high ∧ high ≤ 0xDBFF) (hlow : 0xDC00 ≤ low ∧ low ≤ 0xDFFF) :
    CodePointText (first ++ '\\' :: 'u' :: second) (.ofNat (0x10000 + (high - 0xD800) * 0x400 + (low - 0xDC00)))

def shortEscapes : List (Char × Char) :=
  [('"', '"'), ('\\', '\\'), ('/', '/'), ('b', '\x08'), ('f', '\x0c'), ('n', '\n'), ('r', '\r'), ('t', '\t')]

/-- What stands behind a backslash. -/
inductive EscapeText : List Char → Char → Prop where
  | short {letter c : Char} (h : (letter, c) ∈ shortEscapes) : EscapeText [letter] c
  | code {text : List Char} {c : Char} (h : CodePointText text c) : EscapeText ('u' :: text) c

/-- What stands behind the opening quote, with the closing one. -/
inductive CharsText : List Char → List Char → Prop where
  | close : CharsText ['"'] []
  | plain {c : Char} {text cs : List Char} (hcontrol : ¬c < ' ') (hquote : c ≠ '"') (hbackslash : c ≠ '\\')
      (hrest : CharsText text cs) : CharsText (c :: text) (c :: cs)
  | escape {mark text cs : List Char} {c : Char} (h : EscapeText mark c) (hrest : CharsText text cs) :
    CharsText ('\\' :: (mark ++ text)) (c :: cs)

inductive StringText : List Char → String → Prop where
  | quoted {text cs : List Char} (h : CharsText text cs) : StringText ('"' :: text) (String.ofList cs)

/-- Most characters stand for themselves. -/
theorem stringText_of_plain {cs : List Char} (h : ∀ c ∈ cs, ¬c < ' ' ∧ c ≠ '"' ∧ c ≠ '\\') :
    StringText ('"' :: (cs ++ ['"'])) (String.ofList cs) := by
  refine .quoted ?_
  induction cs with
  | nil => exact .close
  | cons c cs ih =>
    obtain ⟨⟨hcontrol, hquote, hbackslash⟩, hrest⟩ := List.forall_mem_cons.mp h
    exact .plain hcontrol hquote hbackslash (ih hrest)

/-! ### Numbers -/

/-- A mark and what stands behind it, or neither. -/
inductive OptionalText (mark : Char → Prop) (part : List Char → α → Prop) : List Char → Option α → Prop where
  | absent : OptionalText mark part [] none
  | marked {c : Char} {text : List Char} {a : α} (hmark : mark c) (h : part text a) :
    OptionalText mark part (c :: text) (some a)

/-- At least one digit. -/
inductive DigitsText : List Char → List Char → Prop where
  | digits {digits : List Char} (h : IsDigits digits) (hne : digits ≠ []) : DigitsText digits digits

/-- At least one digit, and no zero in front of others. -/
structure IsNumeral (text : List Char) : Prop where
  digits : IsDigits text
  ne_nil : text ≠ []
  zero_alone : text.head? = some '0' → text.length = 1

theorem isNumeral_iff {text : List Char} :
    IsNumeral text ↔ text.all Char.isDigit ∧ text ≠ [] ∧ (text.head? = some '0' → text.length = 1) :=
  ⟨fun h => ⟨List.all_eq_true.mpr h.digits, h.ne_nil, h.zero_alone⟩,
    fun ⟨hdigits, hne, hzero⟩ => ⟨List.all_eq_true.mp hdigits, hne, hzero⟩⟩

instance (text : List Char) : Decidable (IsNumeral text) := decidable_of_iff' _ isNumeral_iff

inductive SignedText : List Char → Int → Prop where
  | bare {text digits : List Char} (h : DigitsText text digits) : SignedText text (Nat.ofDigitChars 10 digits 0)
  | plus {text digits : List Char} (h : DigitsText text digits) :
    SignedText ('+' :: text) (Nat.ofDigitChars 10 digits 0)
  | minus {text digits : List Char} (h : DigitsText text digits) :
    SignedText ('-' :: text) (-(Nat.ofDigitChars 10 digits 0 : Int))

/-- A number behind its sign: a numeral, and a fraction and an exponent if it has them. -/
inductive UnsignedText (minus : Bool) : List Char → Json → Prop where
  | parts {whole fraction exponent : List Char} {fraction? : Option (List Char)} {exponent? : Option Int} {json : Json}
      (hwhole : IsNumeral whole) (hfraction : OptionalText (· = '.') DigitsText fraction fraction?)
      (hexponent : OptionalText (fun c => c = 'e' ∨ c = 'E') SignedText exponent exponent?)
      (hvalue : Number.value? minus whole fraction? exponent? = some json) :
    UnsignedText minus (whole ++ (fraction ++ exponent)) json

inductive NumberText : List Char → Json → Prop where
  | bare {text : List Char} {json : Json} (h : UnsignedText false text json) : NumberText text json
  | minus {text : List Char} {json : Json} (h : UnsignedText true text json) : NumberText ('-' :: text) json

/-! ### Values -/

/-- A value that is no array and no object. -/
inductive ScalarText : List Char → Json → Prop where
  | null : ScalarText "null".toList .null
  | true : ScalarText "true".toList (.bool true)
  | false : ScalarText "false".toList (.bool false)
  | string {text : List Char} {content : String} (h : StringText text content) : ScalarText text (.string content)
  | number {text : List Char} {json : Json} (h : NumberText text json) : ScalarText text json

/-- At least one item, with commas between them, and the closing bracket. -/
inductive Listed (part : List Char → α → Prop) (close : Char) : List Char → List α → Prop where
  | last {text gap : List Char} {a : α} (h : Led part text a) (hgap : Blanks gap) :
    Listed part close (text ++ (gap ++ [close])) [a]
  | cons {text gap rest : List Char} {a : α} {as : List α} (h : Led part text a) (hgap : Blanks gap)
      (hrest : Listed part close rest as) : Listed part close (text ++ (gap ++ ',' :: rest)) (a :: as)

/-- What stands behind the opening bracket, with the closing one. -/
inductive ItemsText (part : List Char → α → Prop) (close : Char) : List Char → List α → Prop where
  | none {gap : List Char} (hgap : Blanks gap) : ItemsText part close (gap ++ [close]) []
  | some {text : List Char} {as : List α} (h : Listed part close text as) : ItemsText part close text as

inductive MemberText (value : List Char → Json → Prop) : List Char → String × Json → Prop where
  | pair {nameText gap text : List Char} {name : String} {json : Json} (hname : StringText nameText name)
      (hgap : Blanks gap) (hvalue : Led value text json) :
    MemberText value (nameText ++ (gap ++ ':' :: text)) (name, json)

/-- An array or an object of such values. -/
inductive NestedText (value : List Char → Json → Prop) : List Char → Json → Prop where
  | array {text : List Char} {items : List Json} (h : ItemsText value ']' text items) :
    NestedText value ('[' :: text) (.array items)
  | object {text : List Char} {members : List (String × Json)} (h : ItemsText (MemberText value) '}' text members) :
    NestedText value ('{' :: text) (.object members)

/-- A value in which arrays and objects nest at most `depth` deep. -/
def ValueText : Nat → List Char → Json → Prop
  | 0 => ScalarText
  | depth + 1 => fun text json => ScalarText text json ∨ NestedText (ValueText depth) text json

theorem ValueText.scalar {depth : Nat} {text : List Char} {json : Json} (h : ScalarText text json) :
    ValueText depth text json := by
  cases depth with
  | zero => exact h
  | succ depth => exact .inl h

/-- The text is the value, with blanks around it. -/
def Writes (text : String) (json : Json) : Prop :=
  ∃ body gap, text.toList = body ++ gap ∧ Led (ValueText maxDepth) body json ∧ Blanks gap

/-! ### How a text begins -/

theorem StringText.head {text : List Char} {content : String} (h : StringText text content) :
    ∃ body, text = '"' :: body := by
  cases h
  exact ⟨_, rfl⟩

theorem DigitsText.head {text digits : List Char} (h : DigitsText text digits) :
    ∃ first body, text = first :: body ∧ first.isDigit := by
  obtain ⟨hdigits, hne⟩ := h
  obtain ⟨first, body, rfl⟩ := List.exists_cons_of_ne_nil hne
  exact ⟨first, body, rfl, hdigits first List.mem_cons_self⟩

theorem UnsignedText.head {minus : Bool} {text : List Char} {json : Json} (h : UnsignedText minus text json) :
    ∃ first body, text = first :: body ∧ first.isDigit := by
  obtain ⟨hwhole, -, -, -⟩ := h
  obtain ⟨first, body, rfl, hfirst⟩ := (DigitsText.digits hwhole.digits hwhole.ne_nil).head
  exact ⟨first, _, rfl, hfirst⟩

theorem NumberText.head {text : List Char} {json : Json} (h : NumberText text json) :
    ∃ first body, text = first :: body ∧ (first.isDigit ∨ first = '-') := by
  cases h with
  | bare h =>
    obtain ⟨first, body, htext, hfirst⟩ := h.head
    exact ⟨first, body, htext, .inl hfirst⟩
  | minus => exact ⟨'-', _, rfl, .inr rfl⟩

/-- Parts begin with none of these characters. -/
def BeginsNot (avoided : List Char) (part : List Char → α → Prop) : Prop :=
  ∀ {text a}, part text a → ∃ first body, text = first :: body ∧ first ∉ avoided

theorem beginsNot_scalarText : BeginsNot (blanks ++ brackets) ScalarText := by
  intro text json h
  cases h with
  | null => exact ⟨'n', _, rfl, by decide⟩
  | true => exact ⟨'t', _, rfl, by decide⟩
  | false => exact ⟨'f', _, rfl, by decide⟩
  | string h =>
    obtain ⟨body, rfl⟩ := h.head
    exact ⟨'"', body, rfl, by decide⟩
  | number h =>
    obtain ⟨first, body, htext, hfirst⟩ := h.head
    have hnone : ∀ c ∈ blanks ++ brackets, ¬(c.isDigit ∨ c = '-') := by simp [blanks, brackets]
    exact ⟨first, body, htext, fun hmem => hnone first hmem hfirst⟩

theorem beginsNot_valueText (depth : Nat) : BeginsNot (']' :: blanks) (ValueText depth) := by
  have hscalar : BeginsNot (']' :: blanks) ScalarText := by
    intro text json h
    obtain ⟨first, body, htext, hfirst⟩ := beginsNot_scalarText h
    have hall : ∀ c ∈ ']' :: blanks, c ∈ blanks ++ brackets := by simp [blanks, brackets]
    exact ⟨first, body, htext, fun hmem => hfirst (hall first hmem)⟩
  intro text json h
  cases depth with
  | zero => exact hscalar h
  | succ depth =>
    rcases h with h | h
    · exact hscalar h
    · cases h with
      | array h => exact ⟨'[', _, rfl, by decide⟩
      | object h => exact ⟨'{', _, rfl, by decide⟩

theorem beginsNot_memberText (value : List Char → Json → Prop) : BeginsNot ('}' :: blanks) (MemberText value) := by
  intro text member h
  obtain ⟨hname, hgap, hvalue⟩ := h
  obtain ⟨body, rfl⟩ := hname.head
  exact ⟨'"', _, rfl, by decide⟩

/-! ### Integers -/

variable {text : List Char} {value : UInt64} {depth : Nat}

theorem unsignedText_unsigned_iff {minus : Bool} :
    UnsignedText minus text (.unsigned value) ↔
      minus = false ∧ IsNumeral text ∧ Nat.ofDigitChars 10 text 0 = value.toNat := by
  constructor
  · rintro ⟨hwhole, hfraction, hexponent, hvalue⟩
    obtain ⟨hminus, rfl, rfl, hnumber⟩ := Number.value?_eq_unsigned_iff.mp hvalue
    cases hfraction
    cases hexponent
    rw [List.append_nil, List.append_nil]
    exact ⟨hminus, hwhole, hnumber⟩
  · rintro ⟨hminus, hnumeral, hnumber⟩
    have hvalue := Number.value?_eq_unsigned_iff.mpr ⟨hminus, rfl, rfl, hnumber⟩
    simpa using UnsignedText.parts hnumeral .absent .absent hvalue

theorem scalarText_unsigned_iff :
    ScalarText text (.unsigned value) ↔ IsNumeral text ∧ Nat.ofDigitChars 10 text 0 = value.toNat := by
  constructor
  · rintro (_ | _ | _ | _ | h)
    rcases h with h | h
    · exact (unsignedText_unsigned_iff.mp h).2
    · cases (unsignedText_unsigned_iff.mp h).1
  · exact fun h => .number (.bare (unsignedText_unsigned_iff.mpr ⟨rfl, h⟩))

/-- The text of the integer `n` is the digits of `n`, and nothing else. -/
theorem valueText_unsigned_iff :
    ValueText depth text (.unsigned value) ↔ IsNumeral text ∧ Nat.ofDigitChars 10 text 0 = value.toNat := by
  cases depth with
  | zero => exact scalarText_unsigned_iff
  | succ depth => exact (or_iff_left fun h => nomatch h).trans scalarText_unsigned_iff

end Formula.Json
