import Formula.Proofs.Coincidence
import Formula.Proofs.Display
import Formula.Proofs.Rounding

/-! The text of an expression tells the expression.

A text is of one of six forms (`Expr.Written`), and its first character leaves two of
them at most. A name and a call are told apart by the character after the word. A minus
right after a bracket may be the sign of an operand or that of a number to the left of an
operator: then only digits come next, and what ends them is a bracket there and a blank
here (`Expr.Written.negation_ne_operation`). So texts are compared from the left, each
part to its end, whatever comes after it (`Expr.Written.alike`), without regard to what
the names are. Only the sorts of the names are not in the text. -/
namespace Formula

/-! ### Words -/

section
variable {rest later : List Char}

/-- Words that end where the text breaks are compared as wholes. -/
theorem eq_of_words {word other : List Char} (hword : IsLexeme word) (hother : IsLexeme other)
    (hrest : Breaks rest) (hlater : Breaks later) (h : word ++ rest = other ++ later) :
    word = other ∧ rest = later :=
  (isLongest_of_breaks hword hrest).unique (isLongest_of_breaks hother hlater) h

theorem UnaryOp.name_inj {op other : UnaryOp} (h : op.name = other.name) : op = other := by
  revert h
  cases op <;> cases other <;> decide

theorem BinaryOp.symbol_inj {op other : BinaryOp} (h : op.symbol = other.symbol) : op = other := by
  have hfound := op.ofSymbol?_symbol
  rw [h, other.ofSymbol?_symbol] at hfound
  exact (Option.some.inj hfound).symm

theorem BinaryOp.isLexeme_symbol (op : BinaryOp) : IsLexeme op.symbol.toList :=
  have hspells : Spells .default (some .number) op.symbol .binary := op.spells_symbol (not_valueDue_of_isLeaf rfl)
  hspells.isLexeme

/-- An operand ends there: at the end, before a bracket that closes or before the blank of an operator. -/
def EndsValue (rest : List Char) : Prop := ∀ c ∈ rest.head?, c = ')' ∨ c = ' '

theorem endsValue_nil : EndsValue [] := fun _ h => nomatch h

theorem endsValue_rbracket : EndsValue (')' :: rest) := by
  rintro c ⟨⟩
  exact .inl rfl

theorem endsValue_blank : EndsValue (' ' :: rest) := by
  rintro c ⟨⟩
  exact .inr rfl

theorem EndsValue.breaks (h : EndsValue rest) : Breaks rest := by
  intro c hc
  rcases h c hc with rfl | rfl
  · exact .inr (by decide)
  · exact .inl rfl

theorem EndsValue.ne_lbracket (h : EndsValue rest) : rest ≠ '(' :: later := by
  rintro rfl
  rcases h '(' rfl with heq | heq <;> cases heq

end

namespace Expr

/-- Every name is an identifier, maybe that of a function, and every number is finite. -/
def Legible : Expr → Prop
  | .number value => value.isFinite
  | .var name | .const name => IsIdentifier name.toList
  | .unary _ operand => operand.Legible
  | .binary _ left right => left.Legible ∧ right.Legible

/-! ### The forms of a text -/

/-- What a text begins with. -/
inductive Lead where
  | digit
  | letter
  | minus
  | bracket

/-- Other characters that a text may begin with than letters, digits and the minus are brackets. -/
def leadOf (c : Char) : Lead :=
  if isNameStart c then .letter else if c.isDigit then .digit else if c = '-' then .minus else .bracket

/-- The ways in which the text of an expression comes about. -/
inductive Written : Lead → Expr → List Char → Prop where
  | number {value : Float} (hfinite : value.isFinite) (hsign : signBit value = false) :
    Written .digit (.number value) (unsignedText value)
  | negative {value : Float} (hfinite : value.isFinite) (hsign : signBit value = true) :
    Written .minus (.number value) ('-' :: unsignedText value)
  | name {leaf : Expr} {name : String} (hleaf : leaf = .var name ∨ leaf = .const name)
      (hname : IsIdentifier name.toList) : Written .letter leaf name.toList
  | call {op : UnaryOp} {lead : Lead} {operand : Expr} {text : List Char} (hop : op ≠ .negate)
      (hoperand : Written lead operand text) :
    Written .letter (.unary op operand) (op.name.toList ++ '(' :: (text ++ [')']))
  | negation {lead : Lead} {operand : Expr} {text : List Char} (hoperand : Written lead operand text) :
    Written .bracket (.unary .negate operand) ('(' :: '-' :: (text ++ [')']))
  | operation {leadLeft leadRight : Lead} {left right : Expr} {textLeft textRight : List Char} (op : BinaryOp)
      (hleft : Written leadLeft left textLeft) (hright : Written leadRight right textRight) :
    Written .bracket (.binary op left right)
      ('(' :: (textLeft ++ ' ' :: (op.symbol.toList ++ ' ' :: (textRight ++ [')']))))

theorem Legible.written {expr : Expr} (h : expr.Legible) : ∃ lead, Written lead expr expr.chars := by
  induction expr with
  | number value =>
    obtain ⟨-, htext⟩ := numberText_of_isFinite h
    rw [chars, htext]
    cases hsign : signBit value with
    | false => exact ⟨_, .number h hsign⟩
    | true => exact ⟨_, .negative h hsign⟩
  | var name => exact ⟨_, .name (.inl rfl) h⟩
  | const name => exact ⟨_, .name (.inr rfl) h⟩
  | unary op operand ih =>
    obtain ⟨lead, hoperand⟩ := ih h
    by_cases hop : op = .negate
    · subst hop
      exact ⟨_, .negation hoperand⟩
    · rw [chars_call hop]
      exact ⟨_, .call hop hoperand⟩
  | binary op left right ihl ihr =>
    obtain ⟨leadLeft, hleft⟩ := ihl h.1
    obtain ⟨leadRight, hright⟩ := ihr h.2
    have hoperation := Written.operation op hleft hright
    exact ⟨_, by simpa [chars] using hoperation⟩

/-! ### The first character -/

theorem leadOf_of_isDigit {c : Char} (h : c.isDigit) : leadOf c = .digit := by
  rw [leadOf, if_neg (Lexeme.not_isNameStart_of_isDigit h), if_pos h]

theorem exists_letter_of_isIdentifier {text : List Char} (h : IsIdentifier text) :
    ∃ c cs, text = c :: cs ∧ leadOf c = .letter := by
  obtain ⟨c, cs, htext, hstart⟩ := h.head
  exact ⟨c, cs, htext, if_pos ((Lexeme.isNameStart_iff c).mpr hstart)⟩

/-! ### The parts of a text -/

section
variable {expr other : Expr} {rest later : List Char}

theorem isLexeme_unsignedText {value : Float} (h : value.isFinite) : IsLexeme (unsignedText value) :=
  .number (numberText_of_isFinite h).1

theorem alike_of_unsignedText {a b : Float} (ha : a.isFinite) (hb : b.isFinite) (hsign : signBit a = signBit b)
    (hrest : EndsValue rest) (hlater : EndsValue later) (h : unsignedText a ++ rest = unsignedText b ++ later) :
    (Expr.number a).Alike (.number b) ∧ rest = later := by
  obtain ⟨htext, hend⟩ := eq_of_words (isLexeme_unsignedText ha) (isLexeme_unsignedText hb) hrest.breaks
    hlater.breaks h
  obtain rfl := unsignedText_inj ha hb hsign htext
  exact ⟨.number a, hend⟩

theorem alike_of_name {name : String} (h : expr = .var name ∨ expr = .const name)
    (hother : other = .var name ∨ other = .const name) : expr.Alike other := by
  rcases h with rfl | rfl <;> rcases hother with rfl | rfl
  · exact .var name
  · exact .varConst name
  · exact .constVar name
  · exact .const name

theorem name_ne_call {name : String} {op : UnaryOp} (hname : IsIdentifier name.toList) (hop : op ≠ .negate)
    (hrest : EndsValue rest) : name.toList ++ rest ≠ op.name.toList ++ '(' :: later := by
  intro h
  have hbracket : Breaks ('(' :: later) := breaks_cons (.inr (by decide))
  have hcall : IsLexeme op.name.toList := .identifier (UnaryOp.isIdentifier_name hop)
  exact hrest.ne_lbracket (eq_of_words (.identifier hname) hcall hrest.breaks hbracket h).2

end

namespace Written
variable {lead leadOther : Lead} {expr other : Expr} {text textOther rest later : List Char}

theorem exists_head (h : Written lead expr text) : ∃ c cs, text = c :: cs ∧ leadOf c = lead := by
  cases h with
  | number hfinite hsign =>
    obtain ⟨c, cs, htext, hdigit⟩ := (numberText_of_isFinite hfinite).1.head
    exact ⟨c, cs, htext, leadOf_of_isDigit hdigit⟩
  | negative hfinite hsign => exact ⟨'-', _, rfl, rfl⟩
  | name hleaf hname => exact exists_letter_of_isIdentifier hname
  | call hop hoperand =>
    obtain ⟨c, cs, htext, hlead⟩ := exists_letter_of_isIdentifier (UnaryOp.isIdentifier_name hop)
    rw [htext]
    exact ⟨c, _, rfl, hlead⟩
  | negation hoperand => exact ⟨'(', _, rfl, rfl⟩
  | operation op hleft hright => exact ⟨'(', _, rfl, rfl⟩

theorem leadOf_eq (h : Written lead expr text) {c : Char} {cs : List Char} (htext : text ++ rest = c :: cs) :
    leadOf c = lead := by
  obtain ⟨d, ds, rfl, rfl⟩ := h.exists_head
  exact congrArg leadOf (List.cons.inj htext).1.symm

theorem lead_eq (h : Written lead expr text) (hother : Written leadOther other textOther)
    (htext : text ++ rest = textOther ++ later) : lead = leadOther := by
  obtain ⟨c, cs, rfl, rfl⟩ := hother.exists_head
  exact (h.leadOf_eq htext).symm

/-! ### From left to right -/

/-- A minus after a bracket is followed by nothing but digits if it belongs to the number to the left of an
operator, and these end otherwise than the operand of a negation. -/
theorem negation_ne_operation (hoperand : Written lead expr text) (hleft : Written leadOther other textOther) :
    '-' :: (text ++ ')' :: rest) ≠ textOther ++ ' ' :: later := by
  intro h
  obtain rfl : Lead.minus = leadOther := hleft.leadOf_eq h.symm
  cases hleft with
  | @negative number hfinite hsign =>
    have hdigits : text ++ ')' :: rest = unsignedText number ++ ' ' :: later := (List.cons.inj h).2
    obtain ⟨c, cs, htext, hdigit⟩ := (numberText_of_isFinite hfinite).1.head
    rw [htext] at hdigits
    obtain rfl : Lead.digit = lead := (leadOf_of_isDigit hdigit).symm.trans (hoperand.leadOf_eq hdigits)
    rw [← htext] at hdigits
    cases hoperand with
    | number hoperandFinite hoperandSign =>
      have hends := (eq_of_words (isLexeme_unsignedText hoperandFinite) (isLexeme_unsignedText hfinite)
        endsValue_rbracket.breaks endsValue_blank.breaks hdigits).2
      cases hends

/-- If texts are the same together with what comes after them, the expressions are alike, and the same comes
after them. -/
theorem alike (h : Written lead expr text) (hother : Written leadOther other textOther) (hrest : EndsValue rest)
    (hlater : EndsValue later) (htext : text ++ rest = textOther ++ later) : expr.Alike other ∧ rest = later := by
  -- By induction on the form of the first text. The second has a form with the same first character,
  -- and each part ends before a bracket or a blank in both.
  induction h generalizing leadOther other textOther rest later with
  | number hfinite hsign =>
    obtain rfl : Lead.digit = leadOther := lead_eq (.number hfinite hsign) hother htext
    cases hother with
    | number hotherFinite hotherSign =>
      exact alike_of_unsignedText hfinite hotherFinite (hsign.trans hotherSign.symm) hrest hlater htext
  | negative hfinite hsign =>
    obtain rfl : Lead.minus = leadOther := lead_eq (.negative hfinite hsign) hother htext
    cases hother with
    | negative hotherFinite hotherSign =>
      exact alike_of_unsignedText hfinite hotherFinite (hsign.trans hotherSign.symm) hrest hlater
        (List.cons.inj htext).2
  | @name leaf name hleaf hname =>
    obtain rfl : Lead.letter = leadOther := lead_eq (.name hleaf hname) hother htext
    cases hother with
    | @name otherLeaf otherName hotherLeaf hotherName =>
      obtain ⟨heq, hend⟩ := eq_of_words (.identifier hname) (.identifier hotherName) hrest.breaks
        hlater.breaks htext
      obtain rfl := String.toList_inj.mp heq
      exact ⟨alike_of_name hleaf hotherLeaf, hend⟩
    | call hop hoperand =>
      rw [List.append_assoc] at htext
      exact absurd htext (name_ne_call hname hop hrest)
  | @call op _ _ _ hop hoperand ih =>
    obtain rfl : Lead.letter = leadOther := lead_eq (.call hop hoperand) hother htext
    cases hother with
    | name hleaf hname =>
      rw [List.append_assoc] at htext
      exact absurd htext.symm (name_ne_call hname hop hlater)
    | @call otherOp _ _ _ hotherOp hotherOperand =>
      simp only [List.append_assoc, List.cons_append, List.nil_append] at htext
      have hbracket : ∀ {cs}, Breaks ('(' :: cs) := breaks_cons (.inr (by decide))
      obtain ⟨hname, hoperands⟩ := eq_of_words (.identifier (UnaryOp.isIdentifier_name hop))
        (.identifier (UnaryOp.isIdentifier_name hotherOp)) hbracket hbracket htext
      obtain rfl := UnaryOp.name_inj (String.toList_inj.mp hname)
      obtain ⟨halike, hend⟩ := ih hotherOperand endsValue_rbracket endsValue_rbracket (List.cons.inj hoperands).2
      exact ⟨.unary op halike, (List.cons.inj hend).2⟩
  | negation hoperand ih =>
    obtain rfl : Lead.bracket = leadOther := lead_eq (.negation hoperand) hother htext
    cases hother with
    | negation hotherOperand =>
      simp only [List.append_assoc, List.cons_append, List.nil_append, List.cons.injEq, true_and] at htext
      obtain ⟨halike, hend⟩ := ih hotherOperand endsValue_rbracket endsValue_rbracket htext
      exact ⟨.unary .negate halike, (List.cons.inj hend).2⟩
    | operation op hleft hright =>
      simp only [List.append_assoc, List.cons_append, List.nil_append, List.cons.injEq, true_and] at htext
      exact absurd htext (negation_ne_operation hoperand hleft)
  | operation op hleft hright ihl ihr =>
    obtain rfl : Lead.bracket = leadOther := lead_eq (.operation op hleft hright) hother htext
    cases hother with
    | negation hoperand =>
      simp only [List.append_assoc, List.cons_append, List.nil_append, List.cons.injEq, true_and] at htext
      exact absurd htext.symm (negation_ne_operation hoperand hleft)
    | operation otherOp hotherLeft hotherRight =>
      simp only [List.append_assoc, List.cons_append, List.nil_append, List.cons.injEq, true_and] at htext
      obtain ⟨hlefts, hafterLeft⟩ := ihl hotherLeft endsValue_blank endsValue_blank htext
      obtain ⟨hsymbol, hafterSymbol⟩ := eq_of_words op.isLexeme_symbol otherOp.isLexeme_symbol
        endsValue_blank.breaks endsValue_blank.breaks (List.cons.inj hafterLeft).2
      obtain rfl := BinaryOp.symbol_inj (String.toList_inj.mp hsymbol)
      obtain ⟨hrights, hend⟩ := ihr hotherRight endsValue_rbracket endsValue_rbracket (List.cons.inj hafterSymbol).2
      exact ⟨.binary op hlefts hrights, (List.cons.inj hend).2⟩

end Written

/-- **Texts are the same exactly if the expressions are alike**: a text tells the shape, the operators, the
names and the numbers to the bit, and only whether a name is that of a variable or of a constant is not
in it. -/
theorem text_eq_iff_alike {expr other : Expr} (h : expr.Legible) (hother : other.Legible) :
    expr.text = other.text ↔ expr.Alike other := by
  constructor
  · intro htext
    have hchars : expr.chars ++ [] = other.chars ++ [] := congrArg (· ++ []) (String.ofList_inj.mp htext)
    obtain ⟨lead, hwritten⟩ := h.written
    obtain ⟨leadOther, hwrittenOther⟩ := hother.written
    exact (hwritten.alike hwrittenOther endsValue_nil endsValue_nil hchars).1
  · exact fun halike => congrArg String.ofList halike.chars_eq.symm

/-- `(-1 + sin)` is the text of a sum with a variable or a constant `sin`, and `(-(1 + sin))` is another. -/
theorem text_eq_iff_alike_sin :
    (Expr.binary .add (.number (-1)) (.var "sin")).text = (Expr.binary .add (.number (-1)) (.const "sin")).text ∧
    (Expr.binary .add (.number (-1)) (.var "sin")).text ≠
      (Expr.unary .negate (.binary .add (.number 1) (.var "sin"))).text := by
  have hname : IsIdentifier "sin".toList := isIdentifier_of_all rfl rfl
  have hsum : (Expr.binary .add (.number (-1)) (.var "sin")).Legible := ⟨(by decide : (-1 : Float).isFinite), hname⟩
  constructor
  · have hconst : (Expr.binary .add (.number (-1)) (.const "sin")).Legible := hsum
    exact (text_eq_iff_alike hsum hconst).mpr (.binary .add (.number (-1)) (.varConst "sin"))
  · have hnegation : (Expr.unary .negate (.binary .add (.number 1) (.var "sin"))).Legible :=
      ⟨(by decide : (1 : Float).isFinite), hname⟩
    intro htext
    cases (text_eq_iff_alike hsum hnegation).mp htext

end Expr

end Formula
