import Formula.Proofs.Spelling
import Formula.Tokenize

/-! How a text splits into tokens.

A text is tokens with gaps between them, where each token is the longest lexeme at its
place and has the kind that its spelling and the token before it give it. `Splits` says
so of a text and a list of tokens, without reading anything. A text is read
successfully exactly into the tokens that it splits into, and nothing but the blanks of
the gaps is lost (`Dialect.tokenize_eq_ok_iff_splits`). -/
namespace Formula

/-! ### Spellings and gaps -/

/-- Spaces, tabs, line feeds and carriage returns, maybe none. -/
def IsGap (text : List Char) : Prop := ∀ c ∈ text, c ∈ [' ', '\t', '\n', '\r']

/-- No value stands directly before, so a minus here is a sign. -/
def ValueDue (previous? : Option TokenKind) : Prop :=
  ∀ kind ∈ previous?, kind ∈ [.lbracket, .separator, .binary, .unary]

/-- The text spells a token of the kind, if it comes after one of the kind `previous?`. -/
inductive Spells (table : Dialect) (previous? : Option TokenKind) (text : String) : TokenKind → Prop where
  | number (h : IsNumber text.toList) : Spells table previous? text .number
  | function (h : IsIdentifier text.toList) (hknown : table.contains text) :
    Spells table previous? text .function
  | const (h : IsIdentifier text.toList) (hunknown : ¬table.contains text)
      (hconst : text = "pi" ∨ text = "e") : Spells table previous? text .const
  | var (h : IsIdentifier text.toList) (hunknown : ¬table.contains text)
      (hother : ¬(text = "pi" ∨ text = "e")) : Spells table previous? text .var
  | sign (htext : text = "-") (hdue : ValueDue previous?) : Spells table previous? text .unary
  | minus (htext : text = "-") (hdone : ¬ValueDue previous?) : Spells table previous? text .binary
  | operator (htext : text ∈ ["+", "*", "/", "^"]) : Spells table previous? text .binary
  | lbracket (htext : text = "(") : Spells table previous? text .lbracket
  | rbracket (htext : text = ")") : Spells table previous? text .rbracket
  | separator (htext : text = ",") : Spells table previous? text .separator

/-- The text is a gap, then a token that is the longest lexeme there, then a gap, and so on; the
first token comes after one of the kind `previous?`. -/
inductive Splits (table : Dialect) : Option TokenKind → List Char → List Token → Prop where
  | done {previous? : Option TokenKind} {gap : List Char} (hgap : IsGap gap) : Splits table previous? gap []
  | token {previous? : Option TokenKind} {gap rest : List Char} {token : Token} {later : List Token}
      (hgap : IsGap gap) (hlongest : IsLongest token.text.toList rest)
      (hspells : Spells table previous? token.text token.kind)
      (hrest : Splits table (some token.kind) rest later) :
    Splits table previous? (gap ++ (token.text.toList ++ rest)) (token :: later)

theorem isBlank_iff (c : Char) : isBlank c ↔ c ∈ [' ', '\t', '\n', '\r'] := by
  simp [isBlank, or_assoc]

theorem isBlank_of_isGap {gap : List Char} (h : IsGap gap) {c : Char} (hc : c ∈ gap) : isBlank c :=
  (isBlank_iff c).mpr (h c hc)

theorem valueDue_iff (previous? : Option TokenKind) :
    previous?.all TokenKind.expectsOperand ↔ ValueDue previous? := by
  unfold ValueDue
  cases previous? with
  | none => simp
  | some kind => cases kind <;> simp [TokenKind.expectsOperand]

theorem Splits.blank {table : Dialect} {previous? : Option TokenKind} {c : Char} {cs : List Char}
    {tokens : List Token} (hc : isBlank c) (h : Splits table previous? cs tokens) :
    Splits table previous? (c :: cs) tokens := by
  have hgap : ∀ {gap}, IsGap gap → IsGap (c :: gap) := fun h =>
    List.forall_mem_cons.mpr ⟨(isBlank_iff c).mp hc, h⟩
  cases h with
  | done h => exact .done (hgap h)
  | token h hlongest hspells hrest => exact .token (hgap h) hlongest hspells hrest

/-- A blank is a part of no lexeme. -/
theorem IsLexeme.not_isBlank {text : List Char} (h : IsLexeme text) {c : Char} (hc : c ∈ text) :
    ¬isBlank c := by
  have hinside := h.inLexeme c hc
  rw [isBlank_iff]
  simp only [List.mem_cons, List.not_mem_nil, or_false]
  unfold InLexeme at hinside
  rintro (rfl | rfl | rfl | rfl) <;> exact absurd hinside (by decide)

/-! ### The kind of a lexeme -/

namespace Lexeme
variable {table : Dialect} {previous? : Option TokenKind} {cs rest : List Char} {lexeme : Lexeme}

theorem spells_operator {c : Char} (hc : isOperator c) :
    Spells table previous? (String.ofList [c]) (operatorKind previous? c) := by
  unfold operatorKind
  split
  · next hsign =>
    obtain ⟨rfl, hdue⟩ := hsign
    exact .sign rfl ((valueDue_iff previous?).mp hdue)
  · next hother =>
    simp only [isOperator, Bool.or_eq_true, beq_iff_eq] at hc
    rcases hc with (((rfl | rfl) | rfl) | rfl) | rfl
    · exact .operator (by decide)
    · exact .minus rfl fun hdue => hother ⟨rfl, (valueDue_iff previous?).mpr hdue⟩
    all_goals exact .operator (by decide)

theorem spells_identifier {text : List Char} (h : IsIdentifier text) :
    Spells table previous? (String.ofList text) (table.identifierKind (String.ofList text)) := by
  have hidentifier : IsIdentifier (String.ofList text).toList := by rwa [String.toList_ofList]
  unfold Dialect.identifierKind
  split
  · next hknown => exact .function hidentifier hknown
  · next hunknown =>
    split
    · next hconst => exact .const hidentifier hunknown ((isStandardConstant_iff _).mp hconst)
    · next hother =>
      exact .var hidentifier hunknown fun hconst => hother ((isStandardConstant_iff _).mpr hconst)

/-- A lexeme that is read spells a token of its kind. -/
theorem spells_of_read? (h : read? cs = some (lexeme, rest)) :
    Spells table previous? (String.ofList lexeme.text) (lexeme.kind table previous?) := by
  cases cs with
  | nil => cases h
  | cons c cs =>
    rcases first_of_read? h with hdigit | hname | hsymbol
    · rw [read?_of_isDigit hdigit] at h
      cases h
      refine .number ?_
      rw [String.toList_ofList]
      exact isNumber_splitNumber hdigit cs
    · rw [read?_of_isNameStart hname] at h
      cases h
      exact spells_identifier (isIdentifier_takeWhile hname cs)
    · rcases (mem_symbols_iff c).mp hsymbol with hoperator | rfl | rfl | rfl
      · rw [read?_of_isOperator hoperator] at h
        cases h
        exact spells_operator hoperator
      · cases h
        exact .lbracket rfl
      · cases h
        exact .rbracket rfl
      · cases h
        exact .separator rfl

theorem read?_of_text {c : Char} (h : read? cs = some (lexeme, rest)) (htext : lexeme.text = [c]) :
    read? (c :: rest) = some (lexeme, rest) := by
  have hcs := text_append_of_read? h
  rw [htext, List.singleton_append] at hcs
  rwa [← hcs] at h

theorem kind_of_isNumber (h : read? cs = some (lexeme, rest)) (hnumber : IsNumber lexeme.text) :
    lexeme.kind table previous? = .number := by
  obtain ⟨c, text, htext, hdigit⟩ := hnumber.head
  have hcs := text_append_of_read? h
  rw [htext, List.cons_append] at hcs
  rw [← hcs, read?_of_isDigit hdigit] at h
  obtain ⟨rfl, -⟩ := Prod.mk.inj (Option.some.inj h)
  rfl

theorem kind_of_isIdentifier (h : read? cs = some (lexeme, rest)) (hidentifier : IsIdentifier lexeme.text) :
    lexeme.kind table previous? = table.identifierKind (String.ofList lexeme.text) := by
  obtain ⟨c, text, htext, hname⟩ := hidentifier.head
  have hcs := text_append_of_read? h
  rw [htext, List.cons_append] at hcs
  rw [← hcs, read?_of_isNameStart ((isNameStart_iff c).mpr hname)] at h
  obtain ⟨rfl, -⟩ := Prod.mk.inj (Option.some.inj h)
  rfl

theorem kind_of_isOperator {c : Char} (h : read? cs = some (lexeme, rest)) (htext : lexeme.text = [c])
    (hc : isOperator c) : lexeme.kind table previous? = operatorKind previous? c := by
  have hread := read?_of_text h htext
  rw [read?_of_isOperator hc] at hread
  cases hread
  rfl

/-- A lexeme that is read spells tokens of no other kind. -/
theorem kind_of_spells {kind : TokenKind} (h : read? cs = some (lexeme, rest))
    (hspells : Spells table previous? (String.ofList lexeme.text) kind) :
    lexeme.kind table previous? = kind := by
  have hconst := isStandardConstant_iff (String.ofList lexeme.text)
  cases hspells with
  | number hnumber =>
    rw [String.toList_ofList] at hnumber
    exact kind_of_isNumber h hnumber
  | function hidentifier hknown =>
    rw [String.toList_ofList] at hidentifier
    rw [kind_of_isIdentifier h hidentifier, Dialect.identifierKind, if_pos hknown]
  | const hidentifier hunknown hname =>
    rw [String.toList_ofList] at hidentifier
    rw [kind_of_isIdentifier h hidentifier, Dialect.identifierKind, if_neg hunknown,
      if_pos (hconst.mpr hname)]
  | var hidentifier hunknown hother =>
    rw [String.toList_ofList] at hidentifier
    rw [kind_of_isIdentifier h hidentifier, Dialect.identifierKind, if_neg hunknown,
      if_neg fun hname => hother (hconst.mp hname)]
  | sign htext hdue =>
    rw [kind_of_isOperator h (String.ofList_inj.mp htext) (by decide), operatorKind,
      if_pos ⟨rfl, (valueDue_iff previous?).mpr hdue⟩]
  | minus htext hdone =>
    rw [kind_of_isOperator h (String.ofList_inj.mp htext) (by decide), operatorKind,
      if_neg fun hsign => hdone ((valueDue_iff previous?).mp hsign.2)]
  | operator htext =>
    simp only [List.mem_cons, List.not_mem_nil, or_false] at htext
    rcases htext with htext | htext | htext | htext
    all_goals
      rw [kind_of_isOperator h (String.ofList_inj.mp htext) (by decide), operatorKind,
        if_neg fun hsign => absurd hsign.1 (by decide)]
  | lbracket htext =>
    cases read?_of_text h (String.ofList_inj.mp htext)
    rfl
  | rbracket htext =>
    cases read?_of_text h (String.ofList_inj.mp htext)
    rfl
  | separator htext =>
    cases read?_of_text h (String.ofList_inj.mp htext)
    rfl

end Lexeme

/-! ### Reading a text -/

namespace Dialect
variable {table : Dialect} {previous? : Option TokenKind} {position : Nat} {cs gap rest : List Char}

theorem tokensFrom_gap (h : IsGap gap) :
    table.tokensFrom previous? position (gap ++ cs) =
      table.tokensFrom previous? (position + byteSize gap) cs := by
  induction gap generalizing position with
  | nil => rfl
  | cons c gap ih =>
    have hblank : isBlank c := isBlank_of_isGap h List.mem_cons_self
    rw [List.cons_append, tokensFrom, if_pos hblank, ih fun d hd => h d (List.mem_cons_of_mem c hd),
      byteSize, Nat.add_assoc]

theorem tokensFrom_lexeme {lexeme : Lexeme} (h : Lexeme.read? cs = some (lexeme, rest)) :
    table.tokensFrom previous? position cs =
      (table.tokensFrom (some (lexeme.kind table previous?)) (position + byteSize lexeme.text) rest).map
        (lexeme.token table previous? :: ·) := by
  have hlexeme := (Lexeme.isLongest_of_read? h).lexeme
  have hcs := Lexeme.text_append_of_read? h
  cases cs with
  | nil => cases h
  | cons c cs =>
    have hblank : ¬isBlank c := by
      obtain ⟨d, text, htext, -⟩ := Lexeme.cases_of_isLexeme hlexeme
      rw [htext] at hcs hlexeme
      cases hcs
      exact hlexeme.not_isBlank List.mem_cons_self
    rw [tokensFrom, if_neg hblank]
    split
    · next hnone =>
      rw [hnone] at h
      cases h
    · next other later hsome =>
      rw [hsome] at h
      cases h
      rfl

theorem splits_of_read? {lexeme : Lexeme} {later : List Token} (h : Lexeme.read? cs = some (lexeme, rest))
    (hrest : Splits table (some (lexeme.kind table previous?)) rest later) :
    Splits table previous? cs (lexeme.token table previous? :: later) := by
  have htext : (lexeme.token table previous?).text.toList = lexeme.text := String.toList_ofList
  have hlongest : IsLongest (lexeme.token table previous?).text.toList rest := by
    rw [htext]
    exact Lexeme.isLongest_of_read? h
  have hgap : IsGap [] := fun c hc => (nomatch hc)
  have hsplits := Splits.token hgap hlongest (Lexeme.spells_of_read? h) hrest
  rwa [List.nil_append, htext, Lexeme.text_append_of_read? h] at hsplits

theorem splits_of_tokensFrom {tokens : List Token} (h : table.tokensFrom previous? position cs = .ok tokens) :
    Splits table previous? cs tokens := by
  fun_induction table.tokensFrom previous? position cs generalizing tokens with
  | case1 previous? position =>
    cases h
    exact .done fun c hc => (nomatch hc)
  | case2 previous? position c cs hblank ih => exact (ih h).blank hblank
  | case3 previous? position c cs hblank hread => cases h
  | case4 previous? position c cs hblank lexeme rest hread hlt token =>
    rename_i ih
    obtain ⟨later, hlater, rfl⟩ := map_eq_ok_iff.mp h
    exact splits_of_read? hread (ih hlater)

theorem tokensFrom_of_splits {tokens : List Token} (h : Splits table previous? cs tokens) (position : Nat) :
    table.tokensFrom previous? position cs = .ok tokens := by
  induction h generalizing position with
  | @done previous? gap hgap =>
    rw [← List.append_nil gap, tokensFrom_gap hgap, tokensFrom]
  | @token previous? gap rest token later hgap hlongest hspells hrest ih =>
    -- The token is the longest lexeme here, so reading takes it and stops where it ends.
    obtain ⟨lexeme, hread, htext⟩ := Lexeme.exists_read?_iff.mpr hlongest
    have htoken : String.ofList lexeme.text = token.text := by rw [htext, String.ofList_toList]
    rw [← htoken] at hspells
    have hkind : lexeme.kind table previous? = token.kind := Lexeme.kind_of_spells hread hspells
    rw [tokensFrom_gap hgap, tokensFrom_lexeme hread, hkind, ih, Lexeme.token, hkind, htoken]
    rfl

end Dialect

namespace Splits
variable {table : Dialect} {previous? : Option TokenKind} {cs : List Char} {tokens : List Token}

/-- A text without the blanks is the texts of its tokens. -/
theorem texts_eq_filter (h : Splits table previous? cs tokens) :
    tokens.flatMap (·.text.toList) = cs.filter (· ∉ [' ', '\t', '\n', '\r']) := by
  have hgone : ∀ {gap}, IsGap gap → gap.filter (· ∉ [' ', '\t', '\n', '\r']) = [] := by
    intro gap hgap
    refine List.filter_eq_nil_iff.mpr fun c hc => ?_
    simpa only [decide_eq_true_eq, not_not] using hgap c hc
  induction h with
  | done hgap => exact (hgone hgap).symm
  | @token previous? gap rest token later hgap hlongest hspells hrest ih =>
    have hkept : token.text.toList.filter (· ∉ [' ', '\t', '\n', '\r']) = token.text.toList := by
      refine List.filter_eq_self.mpr fun c hc => decide_eq_true fun hblank => ?_
      exact hlongest.lexeme.not_isBlank hc ((isBlank_iff c).mpr hblank)
    rw [List.flatMap_cons, ih, List.filter_append, List.filter_append, hgone hgap, hkept, List.nil_append]

end Splits

/-- **A text is read exactly into the tokens that it splits into**: each is the longest lexeme at its
place and has the kind that its spelling and the token before it give it, and the blanks between
them are all that is left out. -/
theorem Dialect.tokenize_eq_ok_iff_splits (table : Dialect) (text : String) (tokens : List Token) :
    (table.tokenize text = .ok tokens ↔ Splits table none text.toList tokens) ∧
    (table.tokenize text = .ok tokens →
      tokens.flatMap (·.text.toList) = text.toList.filter (· ∉ [' ', '\t', '\n', '\r'])) := by
  have hiff : table.tokenize text = .ok tokens ↔ Splits table none text.toList tokens :=
    ⟨splits_of_tokensFrom, fun h => tokensFrom_of_splits h 0⟩
  exact ⟨hiff, fun h => (hiff.mp h).texts_eq_filter⟩

/-- In `2e - -x` the mark has no digits and is a name, and the second minus is a sign. -/
theorem Dialect.tokenize_eq_ok_iff_splits_mark :
    Splits .default none "2e - -x".toList
      [.number "2", .const "e", .binary "-", .unary "-", .var "x"] ∧
    [Token.number "2", .const "e", .binary "-", .unary "-", .var "x"].flatMap (·.text.toList) =
      "2e - -x".toList.filter (· ∉ [' ', '\t', '\n', '\r']) := by
  have htext : Dialect.default.tokenize "2e - -x" =
      .ok [.number "2", .const "e", .binary "-", .unary "-", .var "x"] := by decide +kernel
  have hread := Dialect.tokenize_eq_ok_iff_splits .default "2e - -x"
    [.number "2", .const "e", .binary "-", .unary "-", .var "x"]
  exact ⟨hread.1.mp htext, hread.2 htext⟩

end Formula
