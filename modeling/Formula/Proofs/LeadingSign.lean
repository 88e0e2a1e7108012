import Formula.Proofs.Verdicts

/-! Expressions with signs in front only.

    Expression ::= [Sign] Operand { BinaryOperator Operand }

is the rule of arithmetic as it is mostly written, where `x * -y` needs brackets. The
scanner lets a sign stand before every operand. All other rules are the same, so the
narrower grammar derives those expressions in which no sign comes directly behind a
binary operator, at any depth (`derivesLeading_iff`), and a scan accepts nothing else
beyond it (`Scanner.leading_signs_iff`). -/
namespace Formula

/-- The token lists that are derived if a sign may only begin an expression. -/
inductive DerivesLeading (table : Dialect) : Phrase → List Token → Prop where
  | expression {first rest : List Token} (hfirst : DerivesLeading table .term first)
      (hrest : DerivesLeading table .operations rest) : DerivesLeading table .expression (first ++ rest)
  | unsigned {operand : List Token} (hoperand : DerivesLeading table .operand operand) :
    DerivesLeading table .term operand
  | signed {sign : Token} {operand : List Token} (hsign : sign.kind = .unary)
      (hoperand : DerivesLeading table .operand operand) : DerivesLeading table .term (sign :: operand)
  | done : DerivesLeading table .operations []
  | operation {operator : Token} {operand rest : List Token} (hoperator : operator.kind = .binary)
      (hoperand : DerivesLeading table .operand operand) (hrest : DerivesLeading table .operations rest) :
    DerivesLeading table .operations (operator :: (operand ++ rest))
  | leaf {token : Token} (hleaf : token.kind.isLeaf = true) : DerivesLeading table .operand [token]
  | group {left right : Token} {inner : List Token} (hleft : left.kind = .lbracket)
      (hinner : DerivesLeading table .expression inner) (hright : right.kind = .rbracket) :
    DerivesLeading table .operand (left :: (inner ++ [right]))
  | call {name left right : Token} {arity : Nat} {inner : List Token} (hname : name.kind = .function)
      (harity : table.arity name.text = some arity) (hleft : left.kind = .lbracket)
      (hinner : DerivesLeading table (.arguments arity) inner) (hright : right.kind = .rbracket) :
    DerivesLeading table .operand (name :: left :: (inner ++ [right]))
  | argument {first : List Token} (hfirst : DerivesLeading table .expression first) :
    DerivesLeading table (.arguments 1) first
  | arguments {first rest : List Token} {separator : Token} {count : Nat}
      (hfirst : DerivesLeading table .expression first) (hseparator : separator.kind = .separator)
      (hrest : DerivesLeading table (.arguments count) rest) :
    DerivesLeading table (.arguments (count + 1)) (first ++ separator :: rest)

/-- No sign comes directly behind a binary operator. -/
def UnsignedOperations (tokens : List Token) : Prop :=
  tokens.IsChain fun token next => token.kind = .binary → next.kind ≠ .unary

/-- No sign is the first of the tokens. -/
def BeginsUnsigned (tokens : List Token) : Prop := ∀ token ∈ tokens.head?, token.kind ≠ .unary

/-! ### Where tokens meet -/

section
variable {token left right separator : Token} {a b first inner rest : List Token}

theorem beginsUnsigned_cons (h : token.kind ≠ .unary) (rest : List Token) : BeginsUnsigned (token :: rest) := by
  intro first hfirst
  cases hfirst
  exact h

theorem BeginsUnsigned.append (h : BeginsUnsigned a) (hne : a ≠ []) (b : List Token) : BeginsUnsigned (a ++ b) := by
  obtain ⟨token, a, rfl⟩ := List.exists_cons_of_ne_nil hne
  exact h

theorem unsignedOperations_append (h : BeginsUnsigned b) :
    UnsignedOperations (a ++ b) ↔ UnsignedOperations a ∧ UnsignedOperations b := by
  unfold UnsignedOperations
  rw [List.isChain_append]
  constructor
  · exact fun hchain => ⟨hchain.1, hchain.2.1⟩
  · exact fun hchain => ⟨hchain.1, hchain.2, fun _ _ next hnext _ => h next hnext⟩

/-- A token in front only matters if it is a binary operator and a sign follows. -/
theorem unsignedOperations_cons (h : token.kind = .binary → BeginsUnsigned rest) :
    UnsignedOperations (token :: rest) ↔ UnsignedOperations rest := by
  unfold UnsignedOperations
  rw [List.isChain_cons]
  exact ⟨fun hchain => hchain.2, fun hchain => ⟨fun next hnext hbinary => h hbinary next hnext, hchain⟩⟩

theorem unsignedOperations_group (hleft : left.kind = .lbracket) (hright : right.kind = .rbracket) :
    UnsignedOperations (left :: (inner ++ [right])) ↔ UnsignedOperations inner := by
  have hlast : BeginsUnsigned [right] := beginsUnsigned_cons (by simp [hright]) []
  rw [unsignedOperations_cons fun hbinary => absurd hbinary (by simp [hleft]), unsignedOperations_append hlast]
  exact and_iff_left (.singleton right)

theorem unsignedOperations_separator (hseparator : separator.kind = .separator) :
    UnsignedOperations (first ++ separator :: rest) ↔ UnsignedOperations first ∧ UnsignedOperations rest := by
  have hnext : BeginsUnsigned (separator :: rest) := beginsUnsigned_cons (by simp [hseparator]) rest
  rw [unsignedOperations_append hnext, unsignedOperations_cons fun hbinary => absurd hbinary (by simp [hseparator])]

end

section
variable {table : Dialect} {phrase : Phrase} {operator : Token} {tokens operand rest : List Token}

theorem Derives.operand_beginsUnsigned (h : Derives table .operand tokens) : BeginsUnsigned tokens := by
  cases h with
  | leaf hleaf => exact beginsUnsigned_cons (fun hunary => by rw [hunary] at hleaf; cases hleaf) _
  | group hleft hinner hright => exact beginsUnsigned_cons (by simp [hleft]) _
  | call hname harity hleft hinner hright => exact beginsUnsigned_cons (by simp [hname]) _

theorem Derives.operations_beginsUnsigned (h : Derives table .operations tokens) : BeginsUnsigned tokens := by
  cases h with
  | done => exact fun _ hfirst => nomatch hfirst
  | operation hoperator hterm hrest => exact beginsUnsigned_cons (by simp [hoperator]) _

theorem unsignedOperations_operation (hoperand : Derives table .operand operand)
    (hrest : Derives table .operations rest) :
    UnsignedOperations (operator :: (operand ++ rest)) ↔ UnsignedOperations operand ∧ UnsignedOperations rest := by
  have hnext : BeginsUnsigned (operand ++ rest) :=
    hoperand.operand_beginsUnsigned.append hoperand.operand_ne_nil rest
  rw [unsignedOperations_cons fun _ => hnext, unsignedOperations_append hrest.operations_beginsUnsigned]

/-! ### The two grammars -/

theorem DerivesLeading.derives (h : DerivesLeading table phrase tokens) :
    Derives table phrase tokens ∧ UnsignedOperations tokens := by
  induction h with
  | expression _ _ ihfirst ihrest =>
    exact ⟨.expression ihfirst.1 ihrest.1,
      (unsignedOperations_append ihrest.1.operations_beginsUnsigned).mpr ⟨ihfirst.2, ihrest.2⟩⟩
  | unsigned _ ih => exact ⟨.unsigned ih.1, ih.2⟩
  | signed hsign _ ih =>
    exact ⟨.signed hsign ih.1, (unsignedOperations_cons fun _ => ih.1.operand_beginsUnsigned).mpr ih.2⟩
  | done => exact ⟨.done, .nil⟩
  | operation hoperator _ _ ihoperand ihrest =>
    exact ⟨.operation hoperator (.unsigned ihoperand.1) ihrest.1,
      (unsignedOperations_operation ihoperand.1 ihrest.1).mpr ⟨ihoperand.2, ihrest.2⟩⟩
  | leaf hleaf => exact ⟨.leaf hleaf, .singleton _⟩
  | group hleft _ hright ih =>
    exact ⟨.group hleft ih.1 hright, (unsignedOperations_group hleft hright).mpr ih.2⟩
  | call hname harity hleft _ hright ih =>
    refine ⟨.call hname harity hleft ih.1 hright, ?_⟩
    rw [unsignedOperations_cons fun hbinary => absurd hbinary (by simp [hname])]
    exact (unsignedOperations_group hleft hright).mpr ih.2
  | argument _ ih => exact ⟨.argument ih.1, ih.2⟩
  | arguments _ hseparator _ ihfirst ihrest =>
    exact ⟨.arguments ihfirst.1 hseparator ihrest.1,
      (unsignedOperations_separator hseparator).mpr ⟨ihfirst.2, ihrest.2⟩⟩

theorem Derives.leading (h : Derives table phrase tokens) (hunsigned : UnsignedOperations tokens) :
    DerivesLeading table phrase tokens := by
  induction h with
  | expression _ hrest ihfirst ihrest =>
    obtain ⟨hu, hv⟩ := (unsignedOperations_append hrest.operations_beginsUnsigned).mp hunsigned
    exact .expression (ihfirst hu) (ihrest hv)
  | unsigned _ ih => exact .unsigned (ih hunsigned)
  | signed hsign hoperand ih =>
    exact .signed hsign (ih ((unsignedOperations_cons fun _ => hoperand.operand_beginsUnsigned).mp hunsigned))
  | done => exact .done
  | operation hoperator hterm hrest ihterm ihrest =>
    cases hterm with
    | unsigned hoperand =>
      obtain ⟨hu, hv⟩ := (unsignedOperations_operation hoperand hrest).mp hunsigned
      cases ihterm hu with
      | unsigned hleading => exact .operation hoperator hleading (ihrest hv)
      | signed hsign _ => exact absurd hsign (hoperand.operand_beginsUnsigned _ rfl)
    | signed hsign _ => exact absurd hsign ((List.isChain_cons.mp hunsigned).1 _ rfl hoperator)
  | leaf hleaf => exact .leaf hleaf
  | group hleft _ hright ih =>
    exact .group hleft (ih ((unsignedOperations_group hleft hright).mp hunsigned)) hright
  | call hname harity hleft _ hright ih =>
    rw [unsignedOperations_cons fun hbinary => absurd hbinary (by simp [hname])] at hunsigned
    exact .call hname harity hleft (ih ((unsignedOperations_group hleft hright).mp hunsigned)) hright
  | argument _ ih => exact .argument (ih hunsigned)
  | arguments _ hseparator _ ihfirst ihrest =>
    obtain ⟨hu, hv⟩ := (unsignedOperations_separator hseparator).mp hunsigned
    exact .arguments (ihfirst hu) hseparator (ihrest hv)

theorem derivesLeading_iff :
    DerivesLeading table phrase tokens ↔ Derives table phrase tokens ∧ UnsignedOperations tokens :=
  ⟨DerivesLeading.derives, fun h => h.1.leading h.2⟩

theorem not_unsignedOperations_iff : ¬ UnsignedOperations tokens ↔
    ∃ before operator sign later, tokens = before ++ operator :: sign :: later ∧
      operator.kind = .binary ∧ sign.kind = .unary := by
  unfold UnsignedOperations
  rw [List.isChain_iff_forall_rel_of_append_cons_cons]
  constructor
  · intro h
    push Not at h
    obtain ⟨operator, sign, before, later, hsplit, hoperator, hsign⟩ := h
    exact ⟨before, operator, sign, later, hsplit, hoperator, hsign⟩
  · rintro ⟨before, operator, sign, later, hsplit, hoperator, hsign⟩ hall
    exact hall hsplit hoperator hsign

end

/-- **The expressions with signs in front only are those that a scan accepts and in which no sign comes
directly behind a binary operator**: nothing of the narrower grammar is refused, and what is accepted
beyond it has such a sign. -/
theorem Scanner.leading_signs_iff (table : Dialect) (session : Session) (tokens : List Token) :
    (DerivesLeading table .expression tokens ↔
      scanResult table session tokens = .ok () ∧ UnsignedOperations tokens) ∧
    (scanResult table session tokens = .ok () ∧ ¬ DerivesLeading table .expression tokens ↔
      scanResult table session tokens = .ok () ∧ ∃ before operator sign later,
        tokens = before ++ operator :: sign :: later ∧ operator.kind = .binary ∧ sign.kind = .unary) := by
  rw [scanResult_eq_ok_iff, derivesLeading_iff, ← not_unsignedOperations_iff]
  refine ⟨Iff.rfl, and_congr_right fun hderives => ?_⟩
  exact not_congr (and_iff_right hderives)

end Formula
