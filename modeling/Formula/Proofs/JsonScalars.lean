import Formula.Proofs.JsonTexts

/-! Strings, numbers and words are read as they are written.

A reader leaves a rest together with a bound on its length, which it needs for its own sake.
`Leaves` tells what is left without the bound, and a reader that is made of others leaves
what the last of them does (`leaves_bind_iff`). A reader is *exact* for a kind of part if
what it takes off a text is such a part, and if it takes every such part off the front of
any text in which the part ends there (`Exact`). Only numbers need to be ended: a digit
behind a number goes on with it. -/
namespace Formula.Json

variable {α β : Type} {cs rest text : List Char} {a : α}

/-- The reading has this result and leaves this rest. -/
def Leaves {p : List Char → Prop} (reading : Option (α × { rest // p rest })) (a : α) (rest : List Char) : Prop :=
  ∃ h : p rest, reading = some (a, ⟨rest, h⟩)

section
variable {p q : List Char → Prop}

theorem leaves_none : ¬Leaves (none : Option (α × { rest // p rest })) a rest := fun ⟨_, h⟩ => nomatch h

theorem leaves_some_iff {b : α} {left : { rest // p rest }} :
    Leaves (some (b, left)) a rest ↔ b = a ∧ left.1 = rest := by
  constructor
  · rintro ⟨_, h⟩
    cases h
    exact ⟨rfl, rfl⟩
  · rintro ⟨rfl, rfl⟩
    exact ⟨left.2, rfl⟩

theorem leaves_bind_iff {reading : Option (α × { rest // p rest })} {b : β}
    {next : α × { rest // p rest } → Option (β × { rest // q rest })} :
    Leaves (reading.bind next) b rest ↔
      ∃ a left, ∃ h : Leaves reading a left, Leaves (next (a, ⟨left, h.1⟩)) b rest := by
  constructor
  · rintro ⟨hrest, h⟩
    obtain ⟨⟨a, left⟩, hreading, h⟩ := Option.bind_eq_some_iff.mp h
    exact ⟨a, left.1, ⟨left.2, hreading⟩, hrest, h⟩
  · rintro ⟨a, left, ⟨hleft, rfl⟩, hrest, h⟩
    exact ⟨hrest, h⟩

theorem leaves_bind_value_iff {value? : Option β} {next : β → Option (α × { rest // p rest })} :
    Leaves (value?.bind next) a rest ↔ ∃ value, value? = some value ∧ Leaves (next value) a rest := by
  cases value? with
  | none => exact iff_of_false leaves_none fun ⟨_, h, _⟩ => nomatch h
  | some value => exact ⟨fun h => ⟨value, rfl, h⟩, fun ⟨_, h, hnext⟩ => Option.some.inj h ▸ hnext⟩

end

/-- What the reader takes off a text is such a part, and it takes every one that is followed by an end. -/
structure Exact {p : List Char → List Char → Prop} (read : (cs : List Char) → Option (α × { rest // p cs rest }))
    (part : List Char → α → Prop) (ends : List Char → Prop) : Prop where
  sound : ∀ {cs a rest}, Leaves (read cs) a rest → ∃ text, cs = text ++ rest ∧ part text a
  complete : ∀ {text a rest}, part text a → ends rest → Leaves (read (text ++ rest)) a rest

/-- What comes next does not go on with a number. -/
def EndsNumber (rest : List Char) : Prop := ∀ c ∈ rest.head?, ¬c.isDigit ∧ c ≠ '.' ∧ c ≠ 'e' ∧ c ≠ 'E'

namespace Reader

variable {c : Char} {json : Json}

/-! ### Strings -/

theorem hexValue?_eq_some_iff {n : Nat} : hexValue? c = some n ↔ (c, n) ∈ hexDigits := by
  constructor
  · intro h
    have hle : ∀ {last : Char}, c ≤ last → c.toNat ≤ last.toNat := UInt32.le_iff_toNat_le.mp
    have hsmall : c.toNat ≤ 'f'.toNat := by
      unfold hexValue? at h
      split at h
      · next hrange => exact Nat.le_trans (hle hrange.2) (by decide)
      split at h
      · next hrange => exact hle hrange.2
      split at h
      · next hrange => exact Nat.le_trans (hle hrange.2) (by decide)
      · cases h
    have hall : ∀ code ≤ 'f'.toNat, ∀ n ∈ hexValue? (.ofNat code), (Char.ofNat code, n) ∈ hexDigits := by decide
    rw [← Char.ofNat_toNat c] at h ⊢
    exact hall _ hsmall n h
  · have hall : ∀ entry ∈ hexDigits, hexValue? entry.1 = some entry.2 := by decide
    exact hall (c, n)

theorem exact_codeUnit : Exact codeUnit UnitText fun _ => True where
  sound h := by
    unfold codeUnit at h
    split at h
    · obtain ⟨hbound, h⟩ := h
      simp only [Option.bind_eq_bind, Option.bind_eq_some_iff, hexValue?_eq_some_iff] at h
      obtain ⟨i, hi, j, hj, k, hk, l, hl, h⟩ := h
      cases h
      exact ⟨_, rfl, .digits hi hj hk hl⟩
    · exact absurd h leaves_none
  complete h _ := by
    obtain ⟨ha, hb, hc, hd⟩ := h
    rw [← hexValue?_eq_some_iff] at ha hb hc hd
    simp only [codeUnit, List.cons_append, List.nil_append, ha, hb, hc, hd]
    exact leaves_some_iff.mpr ⟨rfl, rfl⟩

theorem exact_codePoint : Exact codePoint CodePointText fun _ => True where
  sound {cs a rest} h := by
    simp only [codePoint, Option.bind_eq_bind, leaves_bind_iff] at h
    obtain ⟨high, left, hhigh, h⟩ := h
    obtain ⟨first, rfl, hfirst⟩ := exact_codeUnit.sound hhigh
    split at h
    · next hsurrogate =>
      split at h
      · simp only [leaves_bind_iff] at h
        obtain ⟨low, left, hlow, h⟩ := h
        obtain ⟨second, rfl, hsecond⟩ := exact_codeUnit.sound hlow
        split at h
        · next hsurrogate' =>
          obtain ⟨rfl, rfl⟩ := leaves_some_iff.mp h
          exact ⟨_, by simp, .pair hfirst hsecond hsurrogate hsurrogate'⟩
        · exact absurd h leaves_none
      · exact absurd h leaves_none
    · split at h
      · exact absurd h leaves_none
      · obtain ⟨rfl, rfl⟩ := leaves_some_iff.mp h
        exact ⟨first, rfl, .single hfirst (by omega)⟩
  complete {text a rest} h _ := by
    simp only [codePoint, Option.bind_eq_bind, leaves_bind_iff]
    cases h with
    | single h hunit =>
      refine ⟨_, rest, exact_codeUnit.complete h trivial, ?_⟩
      rw [if_neg (by omega), if_neg (by omega)]
      exact leaves_some_iff.mpr ⟨rfl, rfl⟩
    | @pair first second high low hfirst hsecond hhigh hlow =>
      refine ⟨high, '\\' :: 'u' :: (second ++ rest), ?_, ?_⟩
      · rw [List.append_assoc]
        exact exact_codeUnit.complete hfirst trivial
      · rw [if_pos hhigh]
        simp only [leaves_bind_iff]
        refine ⟨low, rest, exact_codeUnit.complete hsecond trivial, ?_⟩
        rw [if_pos hlow]
        exact leaves_some_iff.mpr ⟨rfl, rfl⟩

theorem exact_escape : Exact escape EscapeText fun _ => True where
  sound {cs a rest} h := by
    unfold escape at h
    split at h
    case h_9 =>
      simp only [Option.bind_eq_bind, leaves_bind_iff, leaves_some_iff, exists_prop] at h
      obtain ⟨c, left, hcode, rfl, rfl⟩ := h
      obtain ⟨text, rfl, htext⟩ := exact_codePoint.sound hcode
      exact ⟨_, rfl, .code htext⟩
    case h_10 => exact absurd h leaves_none
    all_goals
      obtain ⟨rfl, rfl⟩ := leaves_some_iff.mp h
      exact ⟨[_], rfl, .short (by decide)⟩
  complete {text a rest} h _ := by
    cases h with
    | short h =>
      have hall : ∀ entry ∈ shortEscapes, Leaves (escape (entry.1 :: rest)) entry.2 rest := by
        simp [shortEscapes, escape, leaves_some_iff]
      exact hall _ h
    | code h =>
      simp only [escape, List.cons_append, Option.bind_eq_bind, leaves_bind_iff, leaves_some_iff, exists_prop]
      exact ⟨a, rest, exact_codePoint.complete h trivial, rfl, rfl⟩

theorem exact_stringBody : Exact stringBody CharsText fun _ => True where
  sound {cs chars rest} h := by
    induction cs using stringBody.induct generalizing chars with
    | case1 =>
      rw [stringBody] at h
      exact absurd h leaves_none
    | case2 =>
      rw [stringBody] at h
      obtain ⟨rfl, rfl⟩ := leaves_some_iff.mp h
      exact ⟨['"'], rfl, .close⟩
    | case3 cs ih =>
      rw [stringBody] at h
      simp only [Option.bind_eq_bind, leaves_bind_iff, leaves_some_iff, exists_prop] at h
      obtain ⟨c, afterEscape, ⟨hbound, hescape⟩, chars, left, hchars, rfl, rfl⟩ := h
      obtain ⟨text, rfl, htext⟩ := ih afterEscape hbound hchars
      obtain ⟨mark, rfl, hmark⟩ := exact_escape.sound ⟨hbound, hescape⟩
      exact ⟨_, by simp, .escape hmark htext⟩
    | case4 c cs hquote hbackslash hcontrol =>
      rw [stringBody, if_pos hcontrol] at h
      · exact absurd h leaves_none
      · exact hquote
      · exact hbackslash
    | case5 c cs hquote hbackslash hcontrol ih =>
      rw [stringBody, if_neg hcontrol] at h
      · simp only [Option.bind_eq_bind, leaves_bind_iff, leaves_some_iff, exists_prop] at h
        obtain ⟨chars, left, hchars, rfl, rfl⟩ := h
        obtain ⟨text, rfl, htext⟩ := ih hchars
        exact ⟨c :: text, rfl, .plain hcontrol hquote hbackslash htext⟩
      · exact hquote
      · exact hbackslash
  complete {text chars rest} h _ := by
    induction h with
    | close =>
      rw [List.singleton_append, stringBody]
      exact leaves_some_iff.mpr ⟨rfl, rfl⟩
    | plain hcontrol hquote hbackslash hrest ih =>
      rw [List.cons_append, stringBody, if_neg hcontrol]
      · simp only [Option.bind_eq_bind, leaves_bind_iff, leaves_some_iff, exists_prop]
        exact ⟨_, rest, ih, rfl, rfl⟩
      · exact hquote
      · exact hbackslash
    | escape h hrest ih =>
      rw [List.cons_append, List.append_assoc, stringBody]
      simp only [Option.bind_eq_bind, leaves_bind_iff, leaves_some_iff, exists_prop]
      exact ⟨_, _, exact_escape.complete h trivial, _, rest, ih, rfl, rfl⟩

theorem exact_string : Exact string StringText fun _ => True where
  sound {cs content rest} h := by
    unfold string at h
    split at h
    · simp only [Option.bind_eq_bind, leaves_bind_iff, leaves_some_iff, exists_prop] at h
      obtain ⟨chars, left, hchars, rfl, rfl⟩ := h
      obtain ⟨text, rfl, htext⟩ := exact_stringBody.sound hchars
      exact ⟨'"' :: text, rfl, .quoted htext⟩
    · exact absurd h leaves_none
  complete {text content rest} h _ := by
    obtain ⟨h⟩ := h
    simp only [string, List.cons_append, Option.bind_eq_bind, leaves_bind_iff, leaves_some_iff, exists_prop]
    exact ⟨_, rest, exact_stringBody.complete h trivial, rfl, rfl⟩

/-! ### Numbers -/

theorem exact_digits : Exact digits DigitsText fun rest => ∀ c ∈ rest.head?, ¬c.isDigit where
  sound {cs taken rest} h := by
    cases cs with
    | nil => exact absurd h leaves_none
    | cons c cs =>
      simp only [digits] at h
      split at h
      · next hdigit =>
        obtain ⟨rfl, rfl⟩ := leaves_some_iff.mp h
        have hdigits : IsDigits (c :: cs.takeWhile Char.isDigit) :=
          List.forall_mem_cons.mpr ⟨hdigit, fun d hd => List.mem_takeWhile_imp hd⟩
        exact ⟨_, by rw [List.cons_append, List.takeWhile_append_dropWhile], .digits hdigits (List.cons_ne_nil _ _)⟩
      · exact absurd h leaves_none
  complete {text taken rest} h hends := by
    obtain ⟨hdigits, hne⟩ := h
    obtain ⟨c, taken, rfl⟩ := List.exists_cons_of_ne_nil hne
    obtain ⟨hdigit, hdigits⟩ := List.forall_mem_cons.mp hdigits
    obtain ⟨htake, hdrop⟩ := span_append hdigits hends
    simp only [digits, List.cons_append, if_pos hdigit, htake, hdrop]
    exact leaves_some_iff.mpr ⟨rfl, rfl⟩

theorem exact_wholeDigits :
    Exact wholeDigits (fun text whole => text = whole ∧ IsNumeral whole) fun rest => ∀ c ∈ rest.head?, ¬c.isDigit where
  sound {cs whole rest} h := by
    simp only [wholeDigits, Option.bind_eq_bind, leaves_bind_iff] at h
    obtain ⟨taken, left, htaken, h⟩ := h
    obtain ⟨text, rfl, hdigits, hne⟩ := exact_digits.sound htaken
    split at h
    · exact absurd h leaves_none
    · next hzero =>
      obtain ⟨rfl, rfl⟩ := leaves_some_iff.mp h
      exact ⟨taken, rfl, rfl, hdigits, hne, fun hhead => Decidable.not_not.mp fun hlength => hzero ⟨hhead, hlength⟩⟩
  complete {text whole rest} h hends := by
    obtain ⟨rfl, hwhole⟩ := h
    simp only [wholeDigits, Option.bind_eq_bind, leaves_bind_iff]
    refine ⟨text, rest, exact_digits.complete (.digits hwhole.digits hwhole.ne_nil) hends, ?_⟩
    rw [if_neg fun ⟨hhead, hlength⟩ => hlength (hwhole.zero_alone hhead)]
    exact leaves_some_iff.mpr ⟨rfl, rfl⟩

theorem exact_signedDigits : Exact signedDigits SignedText fun rest => ∀ c ∈ rest.head?, ¬c.isDigit where
  sound {cs exponent rest} h := by
    unfold signedDigits at h
    split at h
    all_goals
      simp only [Option.bind_eq_bind, leaves_bind_iff, leaves_some_iff, exists_prop] at h
      obtain ⟨digits, left, hdigits, rfl, rfl⟩ := h
      obtain ⟨text, rfl, htext⟩ := exact_digits.sound hdigits
    · exact ⟨'-' :: text, rfl, .minus htext⟩
    · exact ⟨'+' :: text, rfl, .plus htext⟩
    · exact ⟨text, rfl, .bare htext⟩
  complete {text exponent rest} h hends := by
    cases h with
    | @bare text digits h =>
      obtain ⟨first, body, rfl, hfirst⟩ := h.head
      rw [signedDigits]
      · simp only [Option.bind_eq_bind, leaves_bind_iff, leaves_some_iff, exists_prop]
        exact ⟨_, rest, exact_digits.complete h hends, rfl, rfl⟩
      · intro cs hcs
        cases hcs
        exact absurd hfirst (by decide)
      · intro cs hcs
        cases hcs
        exact absurd hfirst (by decide)
    | plus h =>
      simp only [signedDigits, List.cons_append, Option.bind_eq_bind, leaves_bind_iff, leaves_some_iff, exists_prop]
      exact ⟨_, rest, exact_digits.complete h hends, rfl, rfl⟩
    | minus h =>
      simp only [signedDigits, List.cons_append, Option.bind_eq_bind, leaves_bind_iff, leaves_some_iff, exists_prop]
      exact ⟨_, rest, exact_digits.complete h hends, rfl, rfl⟩

theorem exact_optionalPart {mark : Char → Bool} {Mark : Char → Prop} {read : Reader α} {part : List Char → α → Prop}
    {ends : List Char → Prop} (h : Exact read part ends) (hmark : ∀ c, mark c ↔ Mark c) :
    Exact (optionalPart mark read) (OptionalText Mark part) fun rest => ends rest ∧ ∀ c ∈ rest.head?, ¬Mark c where
  sound {cs a? rest} hread := by
    cases cs with
    | nil =>
      obtain ⟨rfl, rfl⟩ := leaves_some_iff.mp hread
      exact ⟨[], rfl, .absent⟩
    | cons c cs =>
      simp only [optionalPart] at hread
      split at hread
      · next hc =>
        simp only [Option.bind_eq_bind, leaves_bind_iff, leaves_some_iff, exists_prop] at hread
        obtain ⟨a, left, hpart, rfl, rfl⟩ := hread
        obtain ⟨text, rfl, htext⟩ := h.sound hpart
        exact ⟨c :: text, rfl, .marked ((hmark c).mp hc) htext⟩
      · obtain ⟨rfl, rfl⟩ := leaves_some_iff.mp hread
        exact ⟨[], rfl, .absent⟩
  complete {text a? rest} hpart hends := by
    cases hpart with
    | absent =>
      cases rest with
      | nil => exact leaves_some_iff.mpr ⟨rfl, rfl⟩
      | cons c rest =>
        have hc : ¬mark c := fun hc => hends.2 c rfl ((hmark c).mp hc)
        simp only [optionalPart, List.nil_append, if_neg hc]
        exact leaves_some_iff.mpr ⟨rfl, rfl⟩
    | marked hc hpart =>
      simp only [optionalPart, List.cons_append, if_pos ((hmark _).mpr hc), Option.bind_eq_bind, leaves_bind_iff,
        leaves_some_iff, exists_prop]
      exact ⟨_, rest, h.complete hpart hends.1, rfl, rfl⟩

/-- What comes next is the mark of the part, or what comes behind it. -/
theorem head_optional {mark goes : Char → Prop} {part : List Char → α → Prop} {a? : Option α}
    (h : OptionalText mark part text a?) (hmark : ∀ c, mark c → goes c) (hrest : ∀ c ∈ rest.head?, goes c) :
    ∀ c ∈ (text ++ rest).head?, goes c := by
  cases h with
  | absent => exact hrest
  | marked hc h =>
    intro d hd
    cases hd
    exact hmark _ hc

theorem isMark_iff (c : Char) : (c == 'e' || c == 'E') = true ↔ c = 'e' ∨ c = 'E' := by simp

theorem exact_unsigned {minus : Bool} : Exact (unsigned minus) (UnsignedText minus) EndsNumber where
  sound {cs json rest} h := by
    simp only [unsigned, Option.bind_eq_bind, leaves_bind_iff] at h
    obtain ⟨whole, left, hwhole, fraction?, left', hfraction, exponent?, left'', hexponent, h⟩ := h
    obtain ⟨json, hvalue, h⟩ := leaves_bind_value_iff.mp h
    obtain ⟨rfl, rfl⟩ := leaves_some_iff.mp h
    obtain ⟨_, hcs, rfl, hnumeral⟩ := exact_wholeDigits.sound hwhole
    obtain ⟨fraction, hleft, hfraction⟩ := (exact_optionalPart exact_digits fun _ => beq_iff_eq).sound hfraction
    obtain ⟨exponent, hleft', hexponent⟩ := (exact_optionalPart exact_signedDigits isMark_iff).sound hexponent
    exact ⟨_, by simp only [hcs, hleft, hleft', List.append_assoc], .parts hnumeral hfraction hexponent hvalue⟩
  complete {text json rest} h hends := by
    obtain @⟨whole, fraction, exponent, fraction?, exponent?, _, hwhole, hfraction, hexponent, hvalue⟩ := h
    simp only [unsigned, Option.bind_eq_bind, leaves_bind_iff]
    -- Each part is followed by the parts behind it, which begin with a mark if they are there.
    have hmark : ∀ c, c = 'e' ∨ c = 'E' → ¬c.isDigit ∧ c ≠ '.' := by
      rintro c (rfl | rfl) <;> decide
    have hbehind := head_optional hexponent hmark fun c hc => ⟨(hends c hc).1, (hends c hc).2.1⟩
    have hbehind' := head_optional hfraction (fun c hc => hc ▸ by decide) fun c hc => (hbehind c hc).1
    refine ⟨whole, fraction ++ (exponent ++ rest), ?_, fraction?, exponent ++ rest, ?_, exponent?, rest, ?_,
      leaves_bind_value_iff.mpr ⟨json, hvalue, leaves_some_iff.mpr ⟨rfl, rfl⟩⟩⟩
    · rw [List.append_assoc, List.append_assoc]
      exact exact_wholeDigits.complete ⟨rfl, hwhole⟩ hbehind'
    · exact (exact_optionalPart exact_digits fun _ => beq_iff_eq).complete hfraction
        ⟨fun c hc => (hbehind c hc).1, fun c hc => (hbehind c hc).2⟩
    · exact (exact_optionalPart exact_signedDigits isMark_iff).complete hexponent
        ⟨fun c hc => (hends c hc).1, fun c hc => not_or.mpr (hends c hc).2.2⟩

theorem exact_number : Exact number NumberText EndsNumber where
  sound {cs json rest} h := by
    unfold number at h
    split at h
    · simp only [Option.bind_eq_bind, leaves_bind_iff, leaves_some_iff, exists_prop] at h
      obtain ⟨json, left, hnumber, rfl, rfl⟩ := h
      obtain ⟨text, rfl, htext⟩ := exact_unsigned.sound hnumber
      exact ⟨'-' :: text, rfl, .minus htext⟩
    · obtain ⟨text, rfl, htext⟩ := exact_unsigned.sound h
      exact ⟨text, rfl, .bare htext⟩
  complete {text json rest} h hends := by
    cases h with
    | bare h =>
      obtain ⟨first, body, rfl, hfirst⟩ := h.head
      rw [number]
      · exact exact_unsigned.complete h hends
      · intro cs hcs
        cases hcs
        exact absurd hfirst (by decide)
    | minus h =>
      simp only [number, List.cons_append, Option.bind_eq_bind, leaves_bind_iff, leaves_some_iff, exists_prop]
      exact ⟨_, rest, exact_unsigned.complete h hends, rfl, rfl⟩

/-! ### Values without brackets -/

theorem leaves_literal_iff {word : String} {constant : Json} :
    Leaves (literal word constant cs) json rest ↔ 0 < word.length ∧ cs = word.toList ++ rest ∧ constant = json := by
  simp only [literal]
  split
  · next h =>
    obtain ⟨hlength, hprefix⟩ := h
    obtain ⟨left, rfl⟩ := List.isPrefixOf_iff_prefix.mp hprefix
    rw [leaves_some_iff]
    simp only [← String.length_toList, List.drop_left]
    exact ⟨fun ⟨hjson, hrest⟩ => ⟨hlength, hrest ▸ rfl, hjson⟩,
      fun ⟨_, hrest, hjson⟩ => ⟨hjson, List.append_cancel_left hrest⟩⟩
  · next h =>
    refine iff_of_false leaves_none ?_
    rintro ⟨hlength, rfl, -⟩
    exact h ⟨hlength, List.isPrefixOf_iff_prefix.mpr (List.prefix_append ..)⟩

theorem scalar_sound {first : Char} (h : Leaves (scalar first cs) json rest) :
    ∃ text, cs = text ++ rest ∧ ScalarText text json := by
  unfold scalar at h
  split at h
  · rw [Option.map_eq_bind] at h
    simp only [leaves_bind_iff, Function.comp_apply, leaves_some_iff, exists_prop] at h
    obtain ⟨content, left, hcontent, rfl, rfl⟩ := h
    obtain ⟨text, rfl, htext⟩ := exact_string.sound hcontent
    exact ⟨text, rfl, .string htext⟩
  split at h
  · obtain ⟨-, rfl, rfl⟩ := leaves_literal_iff.mp h
    exact ⟨_, rfl, .null⟩
  split at h
  · obtain ⟨-, rfl, rfl⟩ := leaves_literal_iff.mp h
    exact ⟨_, rfl, .true⟩
  split at h
  · obtain ⟨-, rfl, rfl⟩ := leaves_literal_iff.mp h
    exact ⟨_, rfl, .false⟩
  · obtain ⟨text, rfl, htext⟩ := exact_number.sound h
    exact ⟨text, rfl, .number htext⟩

theorem scalar_of_number {first : Char} (h : first.isDigit ∨ first = '-') : scalar first cs = number cs := by
  have hother : ∀ c, ¬(c.isDigit ∨ c = '-') → first ≠ c := fun c hc hfirst => hc (hfirst ▸ h)
  rw [scalar, if_neg (hother '"' (by decide)), if_neg (hother 'n' (by decide)), if_neg (hother 't' (by decide)),
    if_neg (hother 'f' (by decide))]

theorem scalar_complete {first : Char} {body : List Char} (h : ScalarText text json) (htext : text = first :: body)
    (hends : EndsNumber rest) : Leaves (scalar first (text ++ rest)) json rest := by
  have hword : ∀ {word : String} {constant : Json}, 0 < word.length →
      Leaves (literal word constant (word.toList ++ rest)) constant rest :=
    fun hlength => leaves_literal_iff.mpr ⟨hlength, rfl, rfl⟩
  cases h with
  | null =>
    cases htext
    exact hword (by decide)
  | true =>
    cases htext
    exact hword (by decide)
  | false =>
    cases htext
    exact hword (by decide)
  | string h =>
    obtain ⟨body, rfl⟩ := h.head
    cases htext
    rw [scalar, if_pos rfl, Option.map_eq_bind]
    simp only [leaves_bind_iff, Function.comp_apply, leaves_some_iff, exists_prop]
    exact ⟨_, rest, exact_string.complete h trivial, rfl, rfl⟩
  | number h =>
    obtain ⟨first, body, rfl, hfirst⟩ := h.head
    cases htext
    rw [scalar_of_number hfirst]
    exact exact_number.complete h hends

end Reader

end Formula.Json
