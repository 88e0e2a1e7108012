import Formula.Proofs.Checking

/-! The texts of a list of tokens.

Tokens may be written with any blanks between them, and with none where they stay
apart without. A lexeme ends where the text after it *breaks*: where nothing comes, or a
blank or a symbol, which continues no number and no name. With a blank between any two
tokens, every list whose tokens are spelled as their places ask is read back from its
text (`Dialect.tokenize_spaced`). Without one, two words in a row would become a single
one, but the grammar lets no word follow a word. So an accepted text may be laid out in
any way (`Scanner.check_ignores_gaps`). -/
namespace Formula

/-! ### Where a lexeme ends -/

/-- Nothing is left, or what is left begins with a blank or a symbol. -/
def Breaks (rest : List Char) : Prop := ∀ c ∈ rest.head?, isBlank c ∨ c ∈ symbols

theorem breaks_nil : Breaks [] := fun _ h => nomatch h

theorem isGap_nil : IsGap [] := fun _ h => nomatch h

theorem Breaks.head {rest : List Char} (h : Breaks rest) : ∀ c ∈ rest.head?, ¬isNameChar c ∧ c ≠ '.' := by
  intro c hc
  rcases h c hc with hblank | hsymbol
  · rw [isBlank_iff] at hblank
    simp only [List.mem_cons, List.not_mem_nil, or_false] at hblank
    rcases hblank with rfl | rfl | rfl | rfl <;> decide
  · simp only [symbols, List.mem_cons, List.not_mem_nil, or_false] at hsymbol
    rcases hsymbol with rfl | rfl | rfl | rfl | rfl | rfl | rfl | rfl <;> decide

theorem isNameChar_of_isDigit {c : Char} (h : c.isDigit) : isNameChar c := by
  simp [isNameChar, Char.isAlphanum, h]

theorem Breaks.head_not_digit {rest : List Char} (h : Breaks rest) : ∀ c ∈ rest.head?, ¬c.isDigit :=
  fun c hc hdigit => (h.head c hc).1 (isNameChar_of_isDigit hdigit)

theorem forall_head?_append {P : Char → Prop} {a b : List Char} (ha : ∀ c ∈ a.head?, P c)
    (hb : ∀ c ∈ b.head?, P c) : ∀ c ∈ (a ++ b).head?, P c := by
  cases a with
  | nil => exact hb
  | cons c a => exact ha

namespace Lexeme
variable {rest : List Char}

theorem splitDigits_of_isDigits {digits : List Char} (h : IsDigits digits)
    (hrest : ∀ c ∈ rest.head?, ¬c.isDigit) : splitDigits (digits ++ rest) = (digits, rest) :=
  have hspan := span_append h hrest
  Prod.ext hspan.1 hspan.2

theorem splitFraction_of_isFraction {fraction : List Char} (h : IsFraction fraction)
    (hrest : ∀ c ∈ rest.head?, ¬c.isDigit ∧ c ≠ '.') : splitFraction (fraction ++ rest) = (fraction, rest) := by
  cases h with
  | absent => exact splitFraction_of_head fun c hc => (hrest c hc).2
  | point hdigits =>
    rw [List.cons_append, splitFraction, splitDigits_of_isDigits hdigits fun c hc => (hrest c hc).1]

theorem splitExponent_of_isExponent {exponent : List Char} (h : IsExponent exponent) (hrest : Breaks rest) :
    splitExponent (exponent ++ rest) = (exponent, rest) := by
  cases h with
  | absent =>
    cases rest with
    | nil => rfl
    | cons c rest =>
      have hmark : ¬(c = 'e' ∨ c = 'E') := by
        have hname := (hrest.head c rfl).1
        rintro (rfl | rfl) <;> exact hname (by decide)
      rw [List.nil_append, splitExponent, if_neg hmark]
  | @marked mark sign digits hmark hsign hdigits hne =>
    obtain ⟨d, ds, rfl⟩ := List.exists_cons_of_ne_nil hne
    have hsplit : splitSign (sign ++ (d :: ds ++ rest)) = (sign, d :: ds ++ rest) :=
      splitSign_of_isSign hsign fun c hc => by cases hc; exact hdigits d List.mem_cons_self
    rw [List.cons_append, List.append_assoc]
    simp only [splitExponent, if_pos hmark, hsplit, splitDigits_of_isDigits hdigits hrest.head_not_digit,
      if_neg hne]

theorem splitNumber_of_isNumber {number : List Char} (h : IsNumber number) (hrest : Breaks rest) :
    splitNumber (number ++ rest) = (number, rest) := by
  obtain ⟨hwhole, hne, hfraction, hexponent⟩ := h
  rename_i whole fraction exponent
  have hafterWhole : ∀ c ∈ (fraction ++ (exponent ++ rest)).head?, ¬c.isDigit := by
    rw [← List.append_assoc]
    exact forall_head?_append (hfraction.head_not_digit hexponent) hrest.head_not_digit
  have hmark : ∀ c ∈ exponent.head?, ¬c.isDigit ∧ c ≠ '.' := fun c hc => by
    rcases hexponent.head c hc with rfl | rfl <;> decide
  have hafterFraction : ∀ c ∈ (exponent ++ rest).head?, ¬c.isDigit ∧ c ≠ '.' :=
    forall_head?_append hmark fun c hc => ⟨hrest.head_not_digit c hc, (hrest.head c hc).2⟩
  simp only [splitNumber, List.append_assoc, splitDigits_of_isDigits hwhole hafterWhole,
    splitFraction_of_isFraction hfraction hafterFraction, splitExponent_of_isExponent hexponent hrest]

end Lexeme

/-- Where the text after it breaks, a lexeme is the longest one. -/
theorem isLongest_of_breaks {text rest : List Char} (h : IsLexeme text) (hrest : Breaks rest) :
    IsLongest text rest := by
  obtain ⟨c, cs, rfl, ⟨hdigit, hnumber⟩ | ⟨hname, hidentifier⟩ | ⟨hsymbol, rfl⟩⟩ := Lexeme.cases_of_isLexeme h
  · have hlongest := Lexeme.isLongest_number hdigit (cs ++ rest)
    rwa [← List.cons_append, Lexeme.splitNumber_of_isNumber hnumber hrest] at hlongest
  · have hchars : ∀ d ∈ cs, isNameChar d := by
      cases hidentifier with
      | name hfirst hchars => exact fun d hd => (Lexeme.isNameChar_iff d).mpr (hchars d hd)
    obtain ⟨htake, hdrop⟩ := span_append hchars fun d hd => (hrest.head d hd).1
    have hlongest := Lexeme.isLongest_identifier hname (cs ++ rest)
    rwa [htake, hdrop] at hlongest
  · exact Lexeme.isLongest_symbol hsymbol rest

/-! ### Well-formed lists -/

/-- Each token is spelled as its place asks, the first one after a token of the kind `previous?`. -/
inductive WellFormed (table : Dialect) : Option TokenKind → List Token → Prop where
  | nil {previous? : Option TokenKind} : WellFormed table previous? []
  | cons {previous? : Option TokenKind} {token : Token} {later : List Token}
      (hspells : Spells table previous? token.text token.kind) (hlater : WellFormed table (some token.kind) later) :
    WellFormed table previous? (token :: later)

/-- The kinds that are spelled by numbers and names. -/
def TokenKind.isWord (kind : TokenKind) : Bool := kind.isLeaf || kind == .function

section
variable {table : Dialect} {previous? : Option TokenKind} {text : String} {kind : TokenKind}
variable {cs rest : List Char} {tokens later : List Token}

theorem Spells.symbol (h : Spells table previous? text kind) (hkind : kind.isWord = false) :
    ∃ c ∈ symbols, text.toList = [c] := by
  cases h with
  | number h => cases hkind
  | function h hknown => cases hkind
  | const h hunknown hconst => cases hkind
  | var h hunknown hother => cases hkind
  | sign htext hdue => exact ⟨'-', by decide, by rw [htext]; rfl⟩
  | minus htext hdone => exact ⟨'-', by decide, by rw [htext]; rfl⟩
  | operator htext =>
    simp only [List.mem_cons, List.not_mem_nil, or_false] at htext
    rcases htext with rfl | rfl | rfl | rfl
    · exact ⟨'+', by decide, rfl⟩
    · exact ⟨'*', by decide, rfl⟩
    · exact ⟨'/', by decide, rfl⟩
    · exact ⟨'^', by decide, rfl⟩
  | lbracket htext => exact ⟨'(', by decide, by rw [htext]; rfl⟩
  | rbracket htext => exact ⟨')', by decide, by rw [htext]; rfl⟩
  | separator htext => exact ⟨',', by decide, by rw [htext]; rfl⟩

theorem Spells.isLexeme (h : Spells table previous? text kind) : IsLexeme text.toList := by
  cases hkind : kind.isWord with
  | false =>
    obtain ⟨c, hc, htext⟩ := h.symbol hkind
    exact .symbol c hc htext
  | true =>
    cases h with
    | number h => exact .number h
    | function h hknown => exact .identifier h
    | const h hunknown hconst => exact .identifier h
    | var h hunknown hother => exact .identifier h
    | _ => cases hkind

/-- A symbol needs no break after it. -/
theorem Spells.isLongest (h : Spells table previous? text kind) (hrest : kind.isWord = true → Breaks rest) :
    IsLongest text.toList rest := by
  cases hkind : kind.isWord with
  | false =>
    obtain ⟨c, hc, htext⟩ := h.symbol hkind
    rw [htext]
    exact Lexeme.isLongest_symbol hc rest
  | true => exact isLongest_of_breaks h.isLexeme (hrest hkind)

theorem Splits.wellFormed (h : Splits table previous? cs tokens) : WellFormed table previous? tokens := by
  induction h with
  | done hgap => exact .nil
  | token hgap hlongest hspells hrest ih => exact .cons hspells ih

/-- A token right at the front of a text. -/
theorem Splits.front {token : Token} (hlongest : IsLongest token.text.toList rest)
    (hspells : Spells table previous? token.text token.kind) (hrest : Splits table (some token.kind) rest later) :
    Splits table previous? (token.text.toList ++ rest) (token :: later) :=
  .token isGap_nil hlongest hspells hrest

/-! ### One blank between tokens -/

theorem WellFormed.splits_spaced (h : WellFormed table previous? tokens) :
    Splits table previous? ([' '].intercalate (tokens.map (·.text.toList))) tokens := by
  induction h with
  | nil => exact .done isGap_nil
  | @cons previous? token later hspells hlater ih =>
    cases later with
    | nil =>
      rw [List.map_singleton, List.intercalate_singleton, ← List.append_nil token.text.toList]
      exact .front (hspells.isLongest fun _ => breaks_nil) hspells ih
    | cons next later =>
      have hblank : isBlank ' ' := rfl
      rw [List.map_cons, List.map_cons, List.intercalate_cons_cons, List.append_assoc, List.singleton_append]
      refine .front (hspells.isLongest fun _ c hc => ?_) hspells (ih.blank hblank)
      cases hc
      exact .inl hblank

end

/-- The texts of the tokens with a space between any two. -/
def spacedText (tokens : List Token) : String := " ".intercalate (tokens.map Token.text)

/-- **Reading a text undoes writing it with spaces**: exactly the well-formed lists are read back from
their spaced texts, and what any text is read into is such a list. -/
theorem Dialect.tokenize_spaced (table : Dialect) (tokens : List Token) :
    (WellFormed table none tokens ↔ table.tokenize (spacedText tokens) = .ok tokens) ∧
    ∀ text, table.tokenize text = .ok tokens →
      WellFormed table none tokens ∧ table.tokenize (spacedText tokens) = .ok tokens := by
  have hspaced : (spacedText tokens).toList = [' '].intercalate (tokens.map (·.text.toList)) := by
    rw [spacedText, String.toList_intercalate, List.map_map]
    rfl
  have hread : WellFormed table none tokens → table.tokenize (spacedText tokens) = .ok tokens := by
    intro h
    have hsplits := h.splits_spaced
    rw [← hspaced] at hsplits
    exact tokensFrom_of_splits hsplits 0
  have hformed : ∀ text, table.tokenize text = .ok tokens → WellFormed table none tokens :=
    fun text htext => (splits_of_tokensFrom htext).wellFormed
  exact ⟨⟨hread, hformed _⟩, fun text htext => ⟨hformed text htext, hread (hformed text htext)⟩⟩

/-- The tokens of `2e- -sin(x)` are read again from `2 e - - sin ( x )`. -/
theorem Dialect.tokenize_spaced_signs :
    WellFormed .default none [.number "2", .const "e", .binary "-", .unary "-", .function "sin", .lbracket,
      .var "x", .rbracket] ∧
    Dialect.default.tokenize "2 e - - sin ( x )" = .ok [.number "2", .const "e", .binary "-", .unary "-",
      .function "sin", .lbracket, .var "x", .rbracket] := by
  have htext : Dialect.default.tokenize "2e- -sin(x)" = .ok [.number "2", .const "e", .binary "-", .unary "-",
      .function "sin", .lbracket, .var "x", .rbracket] := by decide +kernel
  exact (Dialect.tokenize_spaced .default _).2 "2e- -sin(x)" htext

/-! ### Any blanks between tokens -/

/-- The text is the texts of the tokens in their order, with gaps before, between and after them. -/
inductive LaidOut : List Char → List Token → Prop where
  | done {gap : List Char} (hgap : IsGap gap) : LaidOut gap []
  | token {gap rest : List Char} {token : Token} {later : List Token} (hgap : IsGap gap)
      (hrest : LaidOut rest later) : LaidOut (gap ++ (token.text.toList ++ rest)) (token :: later)

theorem laidOut_texts (tokens : List Token) : LaidOut (tokens.flatMap (·.text.toList)) tokens := by
  induction tokens with
  | nil => exact .done isGap_nil
  | cons token later ih => exact .token isGap_nil ih

section
variable {table : Dialect} {previous? : Option TokenKind} {cs : List Char} {tokens : List Token}

/-- The layout of a list that begins with no word breaks what comes before. -/
theorem LaidOut.breaks (h : LaidOut cs tokens) (hformed : WellFormed table previous? tokens)
    (hfirst : ∀ token ∈ tokens.head?, token.kind.isWord = false) : Breaks cs := by
  have hgapHead : ∀ {gap}, IsGap gap → Breaks gap := fun hgap c hc =>
    .inl (isBlank_of_isGap hgap (List.mem_of_mem_head? hc))
  cases h with
  | done hgap => exact hgapHead hgap
  | token hgap hrest =>
    cases hformed with
    | cons hspells hlater =>
      obtain ⟨c, hc, htext⟩ := hspells.symbol (hfirst _ rfl)
      refine forall_head?_append (hgapHead hgap) fun d hd => ?_
      rw [htext] at hd
      cases hd
      exact .inr hc

/-- No state lets a word follow a word. -/
theorem State.isWord_of_admits {kind next : TokenKind} (h : (State.after kind).admits next = true)
    (hkind : kind.isWord = true) : next.isWord = false := by
  revert h hkind
  cases kind <;> cases next <;> decide

/-- If each token may follow the one before it, the list may be laid out in any way. -/
theorem LaidOut.splits (h : LaidOut cs tokens) (hformed : WellFormed table previous? tokens)
    (hchain : tokens.IsChain fun token next => (State.after token.kind).admits next.kind = true) :
    Splits table previous? cs tokens := by
  induction h generalizing previous? with
  | done hgap => exact .done hgap
  | @token gap rest token later hgap hrest ih =>
    obtain ⟨hnext, hlaterChain⟩ := List.isChain_cons.mp hchain
    cases hformed with
    | cons hspells hlater =>
      refine .token hgap (hspells.isLongest fun hword => ?_) hspells (ih hlater hlaterChain)
      exact hrest.breaks hlater fun next hmem => State.isWord_of_admits (hnext next hmem) hword

end

/-- **The blanks of an accepted text do not matter**: however its tokens are laid out, and with no blank
at all, the text passes every check over the table with the same tokens. -/
theorem Scanner.check_ignores_gaps (table : Dialect) (session : Session) (text : String) (tokens : List Token)
    (h : checkResult table session text = .ok tokens) :
    (∀ used other, LaidOut other.toList tokens → checkResult table used other = .ok tokens) ∧
    ∀ used, checkResult table used (String.ofList (text.toList.filter (· ∉ [' ', '\t', '\n', '\r']))) =
      .ok tokens := by
  obtain ⟨htext, haccepted⟩ := checkResult_eq_ok_iff.mp h
  obtain ⟨s, hrun, -⟩ := Session.exists_run_of_accepted haccepted
  have hsplits := Dialect.splits_of_tokensFrom htext
  have hlaid : ∀ used other, LaidOut other.toList tokens → checkResult table used other = .ok tokens := by
    intro used other hother
    have hread := hother.splits hsplits.wellFormed (Session.isChain_of_run hrun)
    exact checkResult_eq_ok_iff.mpr ⟨Dialect.tokensFrom_of_splits hread 0, haccepted⟩
  refine ⟨hlaid, fun used => hlaid used _ ?_⟩
  rw [String.toList_ofList, ← hsplits.texts_eq_filter]
  exact laidOut_texts tokens

/-- `sin (x)-2` with a line break after the name, and with no blank at all. -/
theorem Scanner.check_ignores_gaps_sin :
    checkResult .default .initial "sin\n(x)-2" =
      .ok [.function "sin", .lbracket, .var "x", .rbracket, .binary "-", .number "2"] ∧
    checkResult .default .initial "sin(x)-2" =
      .ok [.function "sin", .lbracket, .var "x", .rbracket, .binary "-", .number "2"] := by
  have hcheck : checkResult .default .initial "sin (x)-2" =
      .ok [.function "sin", .lbracket, .var "x", .rbracket, .binary "-", .number "2"] :=
    checkResult_eq_ok_iff.mpr ⟨by decide +kernel, rfl⟩
  have hline : IsGap ['\n'] := List.forall_mem_singleton.mpr (by decide)
  have hlaid : LaidOut "sin\n(x)-2".toList
      [.function "sin", .lbracket, .var "x", .rbracket, .binary "-", .number "2"] := by
    have htexts := laidOut_texts [.var "x", .rbracket, .binary "-", .number "2"]
    show LaidOut ([] ++ ((Token.function "sin").text.toList ++ (['\n'] ++ (Token.lbracket.text.toList ++
      [Token.var "x", .rbracket, .binary "-", .number "2"].flatMap (·.text.toList))))) _
    exact .token isGap_nil (.token hline htexts)
  obtain ⟨hany, hnone⟩ := Scanner.check_ignores_gaps .default .initial "sin (x)-2" _ hcheck
  exact ⟨hany .initial "sin\n(x)-2" hlaid, hnone .initial⟩

end Formula
