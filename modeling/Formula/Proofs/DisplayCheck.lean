import Formula.Proofs.Acceptance
import Formula.Proofs.Display

/-! Which expressions can be read back from their text.

The minus of a number is a token of its own, and a sign may not follow a sign. The
operands of operators and functions begin behind a bracket or an operator, where a sign
is allowed, and only a negation writes a minus directly before its operand. So a run over
the tokens of an expression goes past a value, or it ends at the minus of a number that
is negated (`Expr.run_tokens`, by induction on the expression, with any brackets open
around it). Therefore exactly those texts are refused in which such a number is
negated (`Scanner.check_text`). -/
namespace Formula

/-! ### Signs that are apart -/

namespace Expr

/-- No number with a minus is negated. -/
def SignsApart (expr : Expr) : Prop :=
  ∀ value, .unary .negate (.number value) ∈ expr.parts → signBit value = false

variable {op : UnaryOp} {operator : BinaryOp} {expr operand left right : Expr} {value : Float}

theorem signsApart_leaf (h : expr.parts = [expr]) (hleaf : ∀ value, expr ≠ .unary .negate (.number value)) :
    expr.SignsApart := by
  intro value hmem
  rw [h, List.mem_singleton] at hmem
  exact absurd hmem.symm (hleaf value)

theorem signsApart_unary (h : op = .negate → ∀ value, operand = .number value → signBit value = false) :
    (Expr.unary op operand).SignsApart ↔ operand.SignsApart := by
  refine ⟨fun hapart value hmem => hapart value (List.mem_cons_of_mem _ hmem), fun hapart value hmem => ?_⟩
  rcases List.mem_cons.mp hmem with hroot | hinner
  · cases hroot
    exact h rfl value rfl
  · exact hapart value hinner

theorem not_signsApart (h : signBit value = true) : ¬ (Expr.unary .negate (.number value)).SignsApart := by
  intro hapart
  rw [hapart value List.mem_cons_self] at h
  cases h

theorem signsApart_binary :
    (Expr.binary operator left right).SignsApart ↔ left.SignsApart ∧ right.SignsApart := by
  simp [SignsApart, parts, or_imp, forall_and]

end Expr

/-! ### Behind a value -/

/-- A minus directly behind a sign. -/
def Error.signAfterSign (position : Nat) : Error :=
  .violation (.unexpectedToken (some (.unary "-")) (.after .unary) position)

/-- Whether all arguments of a call have begun. -/
def Opening.full : Opening → Bool
  | .group => true
  | .call _ arity separators => arity == separators + 1

/-- How a run over the tokens of an expression ends: behind a value with these brackets open if its signs
are apart, and otherwise in an error at a second sign. -/
inductive PastValue (apart : Prop) (openings : List Opening) : Except Error Nesting → Prop where
  | value {m : Nesting} (hapart : apart) (hannounced : m.Announced) (haccepting : m.state.accepting = true)
      (hopenings : m.openings = openings) : PastValue apart openings (.ok m)
  | refused {position : Nat} (hclash : ¬ apart) : PastValue apart openings (.error (.signAfterSign position))

theorem State.admits_operand {state : State} (h : state.admits .var = true) {kind : TokenKind}
    (hkind : kind.isLeaf = true ∨ kind = .function ∨ kind = .lbracket) : state.admits kind = true :=
  admits_of_expectsOperand (expectsOperand_of_admits h (.inl rfl)) hkind

section
variable {table : Dialect} {token : Token} {n m next : Nesting} {opening : Opening} {outer : List Opening}

namespace Nesting

/-- The nesting behind a left bracket. -/
def opened (n : Nesting) : Nesting := ⟨.after .lbracket, n.position + 1, none, n.opening :: n.openings⟩

theorem opened_announced (n : Nesting) : n.opened.Announced := by
  simp [opened, Announced]

/-- A bracket where a value is due belongs to no call. -/
theorem full_opening (h : n.Announced) (hvalue : n.state.admits .var = true) : n.opening.full = true := by
  rw [opening, callee_eq_none h hvalue (by decide)]
  rfl

theorem taken_unary (h : n.Announced) (hadmits : n.state.admits .unary = true) :
    Taken table (.unary "-") n ⟨.after .unary, n.position + 1, none, n.openings⟩ :=
  .plain (.inr (.inr rfl)) (callee_eq_none h hadmits (by decide))

theorem taken_rbracket (hopen : m.openings = opening :: outer) (hfull : opening.full = true)
    (hcallee : m.callee = none) : Taken table .rbracket m ⟨.after .rbracket, m.position + 1, none, outer⟩ := by
  cases opening with
  | group => exact .closesGroup rfl hopen hcallee
  | call name arity separators =>
    obtain rfl : arity = separators + 1 := by simpa [Opening.full] using hfull
    exact .closesCall rfl hopen hcallee

end Nesting

namespace PastValue
variable {apart other : Prop} {openings : List Opening} {tokens : List Token}
variable {result : Except Error Nesting} {f : Nesting → Except Error Nesting}

theorem bind (h : PastValue apart openings result) (hother : other → apart)
    (hnext : ∀ m : Nesting, apart → m.Announced → m.state.accepting = true → m.openings = openings →
      PastValue other outer (f m)) : PastValue other outer (result.bind f) := by
  cases h with
  | value hapart hannounced haccepting hopenings => exact hnext _ hapart hannounced haccepting hopenings
  | refused hclash => exact .refused fun hclear => hclash (hother hclear)

theorem leaf (h : n.Announced) (hvalue : n.state.admits .var = true) (hleaf : token.kind.isLeaf = true)
    (hapart : apart) : PastValue apart n.openings (n.run table [token]) := by
  have hcallee : n.callee = none := Nesting.callee_eq_none h hvalue (by decide)
  have htaken : Nesting.Taken table token n ⟨.after token.kind, n.position + 1, none, n.openings⟩ :=
    .plain (.inl hleaf) hcallee
  rw [Nesting.run_of_taken h (State.admits_operand hvalue (.inl hleaf)) htaken]
  refine .value hapart htaken.announced ?_ rfl
  cases hkind : token.kind <;> simp_all [TokenKind.isLeaf, State.accepting]

/-- A value in brackets is a value. -/
theorem bracketed (h : n.Announced) (hadmits : n.state.admits .lbracket = true) (hfull : n.opening.full = true)
    (hinner : PastValue apart n.opened.openings (n.opened.run table tokens)) :
    PastValue apart n.openings (n.run table (.lbracket :: (tokens ++ [.rbracket]))) := by
  have hopens : Nesting.Taken table .lbracket n n.opened := .opens rfl
  rw [Nesting.run_of_taken h hadmits hopens, Nesting.run_append]
  refine hinner.bind id fun m hapart hannounced haccepting hopenings => ?_
  have hclosing : m.state.admits .rbracket = true :=
    (State.accepting_iff_admits (.inr (.inl rfl))).trans haccepting
  have hcallee : m.callee = none := Nesting.callee_eq_none hannounced hclosing (by decide)
  have htaken : Nesting.Taken table .rbracket m ⟨.after .rbracket, m.position + 1, none, n.openings⟩ :=
    Nesting.taken_rbracket hopenings hfull hcallee
  rw [Nesting.run_of_taken hannounced hclosing htaken]
  exact .value hapart htaken.announced rfl rfl

end PastValue

end

namespace Expr

/-- Behind the minus of a negation, that of a number is refused. -/
theorem pastValue_of_negated {operand : Expr} {n : Nesting} (hstate : n.state = .after .unary)
    (hoperand : (∀ value, operand = .number value → signBit value = false) →
      PastValue operand.SignsApart n.openings (n.run .default operand.tokens)) :
    PastValue (Expr.unary .negate operand).SignsApart n.openings (n.run .default operand.tokens) := by
  by_cases hclash : ∃ value, operand = .number value ∧ signBit value = true
  · obtain ⟨value, rfl, hbit⟩ := hclash
    have hrefused : n.step .default (.unary "-") = .error (.signAfterSign n.position) := by
      rw [Nesting.step_refused (by rw [hstate]; rfl), Nesting.unexpected, hstate]
      rfl
    rw [tokens, if_pos hbit, List.singleton_append, Nesting.run, hrefused]
    exact .refused (not_signsApart hbit)
  · have hplain : ∀ value, operand = .number value → signBit value = false := fun value heq =>
      Bool.eq_false_iff.mpr fun hbit => hclash ⟨value, heq, hbit⟩
    rw [signsApart_unary fun _ => hplain]
    exact hoperand hplain

/-- Where a value is due, the tokens of an expression are taken as a value if its signs are apart. Behind
a sign the expression may not begin with one itself. -/
theorem run_tokens {expr : Expr} (h : expr.Writable) {n : Nesting} (hannounced : n.Announced)
    (hvalue : n.state.admits .var = true)
    (hsign : n.state.admits .unary = true ∨ ∀ value, expr = .number value → signBit value = false) :
    PastValue expr.SignsApart n.openings (n.run .default expr.tokens) := by
  induction expr generalizing n with
  | number value =>
    have hapart : (Expr.number value).SignsApart := signsApart_leaf rfl (by simp)
    rw [tokens]
    cases hbit : signBit value with
    | false => exact .leaf hannounced hvalue rfl hapart
    | true =>
      have hadmits : n.state.admits .unary = true := hsign.resolve_right fun hplain => by
        rw [hplain value rfl] at hbit
        cases hbit
      have htaken : Nesting.Taken .default (.unary "-") n _ := Nesting.taken_unary hannounced hadmits
      show PastValue _ _ (n.run .default (.unary "-" :: [.number _]))
      rw [Nesting.run_of_taken hannounced hadmits htaken]
      exact .leaf htaken.announced rfl rfl hapart
  | var name | const name =>
    obtain ⟨-, hnew⟩ := h.name name (by simp [names, collectNames])
    rw [← Dialect.contains_default] at hnew
    exact .leaf hannounced hvalue (Dialect.isLeaf_identifierKind hnew) (signsApart_leaf rfl (by simp))
  | unary op operand ih =>
    by_cases hop : op = .negate
    · subst hop
      have htaken : Nesting.Taken .default (.unary "-") n.opened _ := Nesting.taken_unary n.opened_announced rfl
      rw [tokens]
      refine .bracketed hannounced (State.admits_operand hvalue (.inr (.inr rfl)))
        (Nesting.full_opening hannounced hvalue) ?_
      rw [Nesting.run_of_taken n.opened_announced rfl htaken]
      exact pastValue_of_negated rfl fun hplain => ih h.of_unary htaken.announced rfl (.inr hplain)
    · have hname : Nesting.Taken .default (.function op.name) n
          ⟨.after .function, n.position + 1, some (op.name, 1), n.openings⟩ := .name rfl (UnaryOp.arity_name hop)
      rw [tokens_call hop, signsApart_unary fun hnegate => absurd hnegate hop,
        Nesting.run_of_taken hannounced (State.admits_operand hvalue (.inr (.inl rfl))) hname]
      refine .bracketed hname.announced rfl rfl ?_
      exact ih h.of_unary (Nesting.opened_announced _) rfl (.inl rfl)
  | binary op left right ihl ihr =>
    rw [tokens, signsApart_binary]
    refine .bracketed hannounced (State.admits_operand hvalue (.inr (.inr rfl)))
      (Nesting.full_opening hannounced hvalue) ?_
    rw [Nesting.run_append]
    refine (ihl h.of_binary.1 n.opened_announced rfl (.inl rfl)).bind And.left
      fun m hapart hm haccepting hopenings => ?_
    have hadmits : m.state.admits .binary = true := (State.accepting_iff_admits (.inl rfl)).trans haccepting
    have htaken : Nesting.Taken .default (.binary op.symbol) m ⟨.after .binary, m.position + 1, none, m.openings⟩ :=
      .plain (.inr (.inl rfl)) (Nesting.callee_eq_none hm hadmits (by decide))
    rw [Nesting.run_of_taken hm hadmits htaken, and_iff_right hapart, ← hopenings]
    exact ihr h.of_binary.2 htaken.announced rfl (.inl rfl)

/-- The tokens of an expression are accepted if its signs are apart. -/
theorem scanResult_tokens {expr : Expr} (h : expr.Writable) (session : Session) :
    (expr.SignsApart ∧ Scanner.scanResult .default session expr.tokens = .ok ()) ∨
    (¬ expr.SignsApart ∧ ∃ position,
      Scanner.scanResult .default session expr.tokens = .error (.signAfterSign position)) := by
  rw [Scanner.scanResult_eq_nesting, Nesting.verdict]
  have hrun : PastValue expr.SignsApart [] (Nesting.initial.run .default expr.tokens) :=
    run_tokens h Nesting.initial_announced rfl (.inl rfl)
  generalize Nesting.initial.run .default expr.tokens = result at hrun
  cases hrun with
  | value hapart hannounced haccepting hopenings =>
    refine .inl ⟨hapart, ?_⟩
    simp only [Except.bind, Nesting.finish, hopenings, haccepting, if_true]
  | refused hclash => exact .inr ⟨hclash, _, rfl⟩

end Expr

/-- **The text of an expression passes the check exactly if no number with a minus is negated in it**,
where its names are identifiers and no functions, and its numbers are finite. Otherwise the check
fails for a minus that comes directly behind a sign. -/
theorem Scanner.check_text (session : Session) (expr : Expr) (h : expr.Writable) :
    ((∃ tokens, checkResult .default session expr.text = .ok tokens) ↔
      ∀ value, .unary .negate (.number value) ∈ expr.parts → signBit value = false) ∧
    ((∃ value, .unary .negate (.number value) ∈ expr.parts ∧ signBit value = true) →
      ∃ position, checkResult .default session expr.text =
        .error (.violation (.unexpectedToken (some (.unary "-")) (.after .unary) position))) := by
  rw [checkResult_of_tokens (Expr.tokenize_text h)]
  rcases Expr.scanResult_tokens h session with ⟨hapart, haccepted⟩ | ⟨hclash, position, hrefused⟩
  · rw [haccepted]
    refine ⟨⟨fun _ => hapart, fun _ => ⟨_, rfl⟩⟩, fun ⟨value, hmem, hbit⟩ => ?_⟩
    rw [hapart value hmem] at hbit
    cases hbit
  · rw [hrefused]
    exact ⟨⟨fun ⟨tokens, hok⟩ => (nomatch hok), fun hapart => absurd hapart hclash⟩, fun _ => ⟨position, rfl⟩⟩

/-- The text of `x` less -1.5 passes, and that of the negation of -1.5 does not. -/
theorem Scanner.check_text_minus :
    (∃ tokens, checkResult .default .initial (Expr.binary .subtract (.var "x") (.number (-1.5))).text = .ok tokens) ∧
    ∃ position, checkResult .default .initial (Expr.unary .negate (.number (-1.5))).text =
      .error (.violation (.unexpectedToken (some (.unary "-")) (.after .unary) position)) := by
  have hbit : signBit (-1.5) = true := by decide
  have hfinite : (-1.5 : Float).isFinite = true := by decide
  have hdifference : (Expr.binary .subtract (.var "x") (.number (-1.5))).Writable := by
    refine ⟨fun name hname => ?_, fun value hvalue => ?_⟩
    · obtain rfl : name = "x" := by simpa [Expr.names, Expr.collectNames] using hname
      exact ⟨isIdentifier_of_all rfl rfl, by decide⟩
    · obtain rfl : value = -1.5 := by simpa [Expr.parts] using hvalue
      exact hfinite
  have hnegation : (Expr.unary .negate (.number (-1.5))).Writable := by
    refine ⟨fun name hname => absurd hname List.not_mem_nil, fun value hvalue => ?_⟩
    obtain rfl : value = -1.5 := by simpa [Expr.parts] using hvalue
    exact hfinite
  refine ⟨(Scanner.check_text .initial _ hdifference).1.mpr fun value hmem => ?_,
    (Scanner.check_text .initial _ hnegation).2 ⟨-1.5, by simp [Expr.parts], hbit⟩⟩
  simp [Expr.parts] at hmem

end Formula
