import Formula.Proofs.Evaluation
import Formula.Proofs.Layout
import Formula.Proofs.Numerals

/-! The tokens of the text of an expression.

The text has a bracket pair around each operation and around the operand of each
function. So what comes after an operand is a right bracket, a blank or nothing: the
operand ends where it begins (`ContinuesValue`), and the text splits into the tokens of
its parts one after the other (`Expr.splits_chars`). This needs names that are
identifiers and no functions, and numbers that are finite (`Expr.Writable`). -/
namespace Formula

namespace Expr

/-! ### Expressions that can be written -/

/-- The expression and all expressions in it. -/
def parts : Expr → List Expr
  | .unary op operand => .unary op operand :: operand.parts
  | .binary op left right => .binary op left right :: (left.parts ++ right.parts)
  | leaf => [leaf]

/-- Every name is an identifier that no built-in function has, and every number is finite. -/
structure Writable (expr : Expr) : Prop where
  name : ∀ name ∈ expr.names, IsIdentifier name.toList ∧ name ∉ Builtin.all.map Builtin.name
  finite : ∀ value, .number value ∈ expr.parts → value.isFinite

section
variable {op : UnaryOp} {operator : BinaryOp} {expr operand left right : Expr} {name : String} {value : Float}

theorem mem_names_binary :
    name ∈ (Expr.binary operator left right).names ↔ name ∈ left.names ∨ name ∈ right.names := by
  rw [mem_names_iff, mem_names_iff, mem_names_iff, leafNames, List.mem_append]

theorem Writable.of_unary (h : (Expr.unary op operand).Writable) : operand.Writable :=
  ⟨h.name, fun value hvalue => h.finite value (List.mem_cons_of_mem _ hvalue)⟩

theorem Writable.of_binary (h : (Expr.binary operator left right).Writable) : left.Writable ∧ right.Writable := by
  have hname := fun name hmem => h.name name (mem_names_binary.mpr hmem)
  have hfinite := fun value hmem => h.finite value (List.mem_cons_of_mem _ (List.mem_append.mpr hmem))
  exact ⟨⟨fun name hmem => hname name (.inl hmem), fun value hmem => hfinite value (.inl hmem)⟩,
    ⟨fun name hmem => hname name (.inr hmem), fun value hmem => hfinite value (.inr hmem)⟩⟩

end

/-! ### The tokens of a text -/

/-- The tokens that the text of an expression is read into. -/
def tokens : Expr → List Token
  | .number value =>
    (if signBit value then [.unary "-"] else []) ++ [.number (String.ofList (unsignedText value))]
  | .var name | .const name => [⟨Dialect.default.identifierKind name, name⟩]
  | .unary .negate operand => .lbracket :: (.unary "-" :: operand.tokens ++ [.rbracket])
  | .unary op operand => .function op.name :: .lbracket :: (operand.tokens ++ [.rbracket])
  | .binary op left right => .lbracket :: (left.tokens ++ .binary op.symbol :: right.tokens ++ [.rbracket])

section
variable {op : UnaryOp} {operand : Expr}

theorem chars_call (h : op ≠ .negate) :
    (Expr.unary op operand).chars = op.name.toList ++ ('(' :: (operand.chars ++ [')'])) := by
  cases op with
  | negate => exact absurd rfl h
  | _ => simp [chars]

theorem tokens_call (h : op ≠ .negate) :
    (Expr.unary op operand).tokens = .function op.name :: .lbracket :: (operand.tokens ++ [.rbracket]) := by
  cases op with
  | negate => exact absurd rfl h
  | _ => rfl

end

end Expr

/-! ### Spellings in a text -/

theorem Dialect.isLeaf_identifierKind {table : Dialect} {name : String} (h : ¬ table.contains name) :
    (table.identifierKind name).isLeaf = true := by
  unfold identifierKind
  rw [if_neg h]
  split
  · rfl
  · rfl

theorem not_valueDue_of_isLeaf {kind : TokenKind} (h : kind.isLeaf = true) : ¬ ValueDue (some kind) := by
  rw [← valueDue_iff]
  cases kind <;> simp_all [TokenKind.isLeaf, TokenKind.expectsOperand]

theorem isIdentifier_of_all {first : Char} {rest : List Char} (hfirst : isNameStart first = true)
    (hrest : rest.all isNameChar = true) : IsIdentifier (first :: rest) :=
  .name ((Lexeme.isNameStart_iff first).mp hfirst) fun c hc =>
    (Lexeme.isNameChar_iff c).mp (List.all_eq_true.mp hrest c hc)

section
variable {table : Dialect} {previous? : Option TokenKind}

theorem UnaryOp.isIdentifier_name {op : UnaryOp} (h : op ≠ .negate) : IsIdentifier op.name.toList := by
  cases op with
  | negate => exact absurd rfl h
  | _ => exact isIdentifier_of_all rfl rfl

theorem UnaryOp.spells_name {op : UnaryOp} (h : op ≠ .negate) :
    Spells .default previous? op.name .function := by
  refine .function (isIdentifier_name h) ((Dialect.contains_default _).mpr ?_)
  cases op with
  | negate => exact absurd rfl h
  | _ => decide

theorem UnaryOp.arity_name {op : UnaryOp} (h : op ≠ .negate) : Dialect.default.arity op.name = some 1 := by
  cases op with
  | negate => exact absurd rfl h
  | _ => decide

theorem BinaryOp.spells_symbol (op : BinaryOp) (h : ¬ ValueDue previous?) :
    Spells table previous? op.symbol .binary := by
  cases op with
  | subtract => exact .minus rfl h
  | _ => exact .operator (by decide)

end

/-! ### Reading a text -/

section
variable {table : Dialect} {previous? : Option TokenKind} {rest : List Char} {later : List Token}

theorem Spells.splits {text : String} {kind : TokenKind} (hspells : Spells table previous? text kind)
    (hrest : Breaks rest) (h : Splits table (some kind) rest later) :
    Splits table previous? (text.toList ++ rest) (⟨kind, text⟩ :: later) := by
  have htoken : Spells table previous? (Token.mk kind text).text (Token.mk kind text).kind := hspells
  exact Splits.front (isLongest_of_breaks htoken.isLexeme hrest) htoken h

theorem Splits.symbol {c : Char} {kind : TokenKind} (hc : c ∈ symbols)
    (hspells : Spells table previous? (String.ofList [c]) kind) (h : Splits table (some kind) rest later) :
    Splits table previous? (c :: rest) (⟨kind, String.ofList [c]⟩ :: later) := by
  have htext : (Token.mk kind (String.ofList [c])).text.toList = [c] := String.toList_ofList
  have hlongest : IsLongest (Token.mk kind (String.ofList [c])).text.toList rest := by
    rw [htext]
    exact Lexeme.isLongest_symbol hc rest
  have hsplits := Splits.front hlongest hspells h
  rwa [htext] at hsplits

theorem Splits.lbracket (h : Splits table (some .lbracket) rest later) :
    Splits table previous? ('(' :: rest) (.lbracket :: later) :=
  .symbol (by decide) (.lbracket rfl) h

theorem breaks_cons {c : Char} (h : isBlank c ∨ c ∈ symbols) : Breaks (c :: rest) := by
  intro d hd
  cases hd
  exact h

theorem valueDue_of_expectsOperand {kind : TokenKind} (h : kind.expectsOperand = true) : ValueDue (some kind) :=
  (valueDue_iff (some kind)).mp h

/-- The text comes after values, which end where it begins, and splits into the tokens there. -/
structure ContinuesValue (table : Dialect) (rest : List Char) (later : List Token) : Prop where
  breaks : Breaks rest
  splits : ∀ kind, ¬ ValueDue (some kind) → Splits table (some kind) rest later

theorem continuesValue_nil : ContinuesValue table [] [] := ⟨breaks_nil, fun _ _ => .done isGap_nil⟩

theorem ContinuesValue.rbracket (h : ContinuesValue table rest later) :
    ContinuesValue table (')' :: rest) (.rbracket :: later) := by
  have hdone : ¬ ValueDue (some .rbracket) := fun hdue => nomatch (valueDue_iff _).mpr hdue
  exact ⟨breaks_cons (.inr (by decide)), fun _ _ => .symbol (by decide) (.rbracket rfl) (h.splits _ hdone)⟩

theorem ContinuesValue.operator (op : BinaryOp) (h : Splits table (some .binary) rest later) :
    ContinuesValue table (' ' :: (op.symbol.toList ++ ' ' :: rest)) (.binary op.symbol :: later) := by
  have hblank : ∀ {cs}, Breaks (' ' :: cs) := breaks_cons (.inl rfl)
  exact ⟨hblank, fun _ hdone => .blank rfl ((op.spells_symbol hdone).splits hblank (h.blank rfl))⟩

end

namespace Expr
variable {previous? : Option TokenKind} {rest : List Char} {later : List Token}

/-- A minus before the digits is a sign. -/
theorem splits_number {value : Float} (h : value.isFinite) (hdue : ValueDue previous?)
    (hlater : ContinuesValue .default rest later) :
    Splits .default previous? (numberText value ++ rest) ((Expr.number value).tokens ++ later) := by
  obtain ⟨hnumber, htext⟩ := numberText_of_isFinite h
  have hunsigned : ∀ previous?, Splits .default previous? (unsignedText value ++ rest)
      (.number (String.ofList (unsignedText value)) :: later) := by
    intro previous?
    rw [← String.toList_ofList (l := unsignedText value)] at hnumber
    have hspells : Spells .default previous? (String.ofList (unsignedText value)) .number := .number hnumber
    have hsplits := hspells.splits hlater.breaks (hlater.splits .number (not_valueDue_of_isLeaf rfl))
    rwa [String.toList_ofList] at hsplits
  rw [htext, tokens]
  cases signBit value with
  | false => exact hunsigned previous?
  | true => exact .symbol (by decide) (.sign rfl hdue) (hunsigned (some .unary))

theorem splits_name {name : String} (hidentifier : IsIdentifier name.toList)
    (hnew : name ∉ Builtin.all.map Builtin.name) (hlater : ContinuesValue .default rest later) :
    Splits .default previous? (name.toList ++ rest) (⟨Dialect.default.identifierKind name, name⟩ :: later) := by
  rw [← Dialect.contains_default] at hnew
  have hdone := not_valueDue_of_isLeaf (Dialect.isLeaf_identifierKind hnew)
  have hspells : Spells .default previous? (String.ofList name.toList)
      (Dialect.default.identifierKind (String.ofList name.toList)) := Lexeme.spells_identifier hidentifier
  rw [String.ofList_toList] at hspells
  exact hspells.splits hlater.breaks (hlater.splits _ hdone)

/-- Where a value is due, the text of an expression splits into its tokens, and what comes after it is
split as before. -/
theorem splits_chars {expr : Expr} (h : expr.Writable) (hdue : ValueDue previous?)
    (hlater : ContinuesValue .default rest later) :
    Splits .default previous? (expr.chars ++ rest) (expr.tokens ++ later) := by
  induction expr generalizing previous? rest later with
  | number value => exact splits_number (h.finite value (by simp [parts])) hdue hlater
  | var name | const name =>
    obtain ⟨hidentifier, hnew⟩ := h.name name (by simp [names, collectNames])
    exact splits_name hidentifier hnew hlater
  | unary op operand ih =>
    have hoperand : ∀ {kind}, kind.expectsOperand = true → Splits .default (some kind)
        (operand.chars ++ ')' :: rest) (operand.tokens ++ .rbracket :: later) := fun hkind =>
      ih h.of_unary (valueDue_of_expectsOperand hkind) hlater.rbracket
    by_cases hop : op = .negate
    · subst hop
      have hsign : Splits .default (some .lbracket) ('-' :: (operand.chars ++ ')' :: rest))
          (.unary "-" :: (operand.tokens ++ .rbracket :: later)) :=
        .symbol (by decide) (.sign rfl (valueDue_of_expectsOperand rfl)) (hoperand rfl)
      simpa [chars, tokens] using hsign.lbracket
    · have hname : Spells .default previous? op.name .function := UnaryOp.spells_name hop
      have hcall := hname.splits (breaks_cons (.inr (by decide))) (hoperand rfl).lbracket
      simpa [chars_call hop, tokens_call hop, Token.function] using hcall
  | binary op left right ihl ihr =>
    have hright : Splits .default (some .binary) (right.chars ++ ')' :: rest)
        (right.tokens ++ .rbracket :: later) :=
      ihr h.of_binary.2 (valueDue_of_expectsOperand rfl) hlater.rbracket
    have hleft : Splits .default (some .lbracket)
        (left.chars ++ ' ' :: (op.symbol.toList ++ ' ' :: (right.chars ++ ')' :: rest)))
        (left.tokens ++ .binary op.symbol :: (right.tokens ++ .rbracket :: later)) :=
      ihl h.of_binary.1 (valueDue_of_expectsOperand rfl) (.operator op hright)
    simpa [chars, tokens] using hleft.lbracket

/-- Reading the text of an expression gives its tokens. -/
theorem tokenize_text {expr : Expr} (h : expr.Writable) : Dialect.default.tokenize expr.text = .ok expr.tokens := by
  have hdue : ValueDue none := fun _ h => nomatch h
  have hsplits := splits_chars h hdue continuesValue_nil
  rw [List.append_nil, List.append_nil] at hsplits
  refine Dialect.tokensFrom_of_splits ?_ 0
  rwa [text, String.toList_ofList]

end Expr

end Formula
