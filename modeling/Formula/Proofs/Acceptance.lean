import Formula.Proofs.Derivation
import Formula.Proofs.Nesting

/-! The language of the scanner.

`Completes` says of any point of a scan which token lists finish it: the grammar's
own phrases up to the innermost open bracket, and then, bracket by bracket, what
closes it and goes on behind it (`Closes`). Taking a token is taking it off the
front of such a list (`completes_step`, `completes_of_taken`), so a run ends well
on exactly the lists that complete its start (`completes_iff`), and from the
initial nesting those are the expressions (`accepts_iff_derives`). -/
namespace Formula

namespace State
variable {state : State} {kind : TokenKind}

/-- An operand may come next, with a sign before it or without. -/
def ExpectsOperand (state : State) : Prop := state.admits .unary = true ∨ state = .after .unary

theorem admits_of_expectsOperand (h : state.ExpectsOperand)
    (hkind : kind.isLeaf = true ∨ kind = .function ∨ kind = .lbracket) : state.admits kind = true := by
  rcases h with h | rfl
  · cases state with
    | start => rcases hkind with hk | rfl | rfl <;> simp_all [admits]
    | after last => cases last <;> rcases hkind with hk | rfl | rfl <;> simp_all [admits]
  · rcases hkind with hk | rfl | rfl <;> simp_all [admits]

theorem expectsOperand_of_admits (h : state.admits kind = true)
    (hkind : kind.isLeaf = true ∨ kind = .function) : state.ExpectsOperand := by
  cases state with
  | start => exact .inl rfl
  | after last => cases last <;> cases kind <;> simp_all [ExpectsOperand, admits, TokenKind.isLeaf]

theorem expectsOperand_or_of_admits_lbracket (h : state.admits .lbracket = true) :
    state.ExpectsOperand ∨ state = .after .function := by
  cases state with
  | start => exact .inl (.inl rfl)
  | after last => cases last <;> simp_all [ExpectsOperand, admits, TokenKind.isLeaf]

/-- What an operand may be followed by follows nothing else. -/
theorem accepting_iff_admits (hkind : kind = .binary ∨ kind = .rbracket ∨ kind = .separator) :
    state.admits kind = state.accepting := by
  cases state with
  | start => rcases hkind with rfl | rfl | rfl <;> rfl
  | after last => rcases hkind with rfl | rfl | rfl <;> cases last <;> rfl

theorem admits_of_accepting (h : state.accepting = true) (kind : TokenKind) :
    state.admits kind = (kind == .binary || kind == .rbracket || kind == .separator) := by
  cases state with
  | start => cases h
  | after last =>
    cases last with
    | var | const | number | rbracket => rfl
    | _ => cases h

theorem admits_unary_of_accepting (h : state.accepting = true) : state.admits .unary = false :=
  admits_of_accepting h .unary

end State

namespace Nesting

section
variable (table : Dialect)

/-- What may stand from the end of an innermost argument or group to the end of the input. -/
inductive Closes : List Opening → List Token → Prop where
  | outside : Closes [] []
  | group {right : Token} {operations rest : List Token} {outer : List Opening}
      (hright : right.kind = .rbracket) (hoperations : Derives table .operations operations)
      (hrest : Closes outer rest) : Closes (.group :: outer) (right :: (operations ++ rest))
  | call {right : Token} {operations rest : List Token} {outer : List Opening} {name : String}
      {separators : Nat} (hright : right.kind = .rbracket)
      (hoperations : Derives table .operations operations) (hrest : Closes outer rest) :
    Closes (.call name (separators + 1) separators :: outer) (right :: (operations ++ rest))
  | argument {separator : Token} {next rest : List Token} {outer : List Opening} {name : String}
      {arity separators : Nat} (hseparator : separator.kind = .separator)
      (hnext : Derives table .expression next)
      (hrest : Closes (.call name arity (separators + 1) :: outer) rest) :
    Closes (.call name arity separators :: outer) (separator :: (next ++ rest))

/-- What may stand from here to the end of the input, by what is due in the state. -/
inductive Completes (n : Nesting) : List Token → Prop where
  | expression {next rest : List Token} (hstate : n.state.admits .unary = true)
      (hnext : Derives table .expression next) (hrest : Closes table n.openings rest) :
    Completes n (next ++ rest)
  | operand {next operations rest : List Token} (hstate : n.state = .after .unary)
      (hnext : Derives table .operand next) (hoperations : Derives table .operations operations)
      (hrest : Closes table n.openings rest) : Completes n (next ++ (operations ++ rest))
  | operations {operations rest : List Token} (hstate : n.state.accepting = true)
      (hoperations : Derives table .operations operations) (hrest : Closes table n.openings rest) :
    Completes n (operations ++ rest)
  | arguments {left right : Token} {inner operations rest : List Token} {name : String} {arity : Nat}
      (hstate : n.state = .after .function) (hcallee : n.callee = some (name, arity))
      (hleft : left.kind = .lbracket) (hinner : Derives table (.arguments arity) inner)
      (hright : right.kind = .rbracket) (hoperations : Derives table .operations operations)
      (hrest : Closes table n.openings rest) :
    Completes n (left :: (inner ++ right :: (operations ++ rest)))

end

variable {table : Dialect}

/-! ### Arguments, one at a time -/

/-- The arguments of a call are its first one, and then what closes the call. -/
theorem closes_of_arguments (separators : Nat) {count : Nat} {inner operations rest : List Token}
    {right : Token} {outer : List Opening} {name : String}
    (hinner : Derives table (.arguments count) inner) (hright : right.kind = .rbracket)
    (hoperations : Derives table .operations operations) (hrest : Closes table outer rest) :
    ∃ first later, Derives table .expression first ∧
      Closes table (.call name (separators + count) separators :: outer) later ∧
      inner ++ right :: (operations ++ rest) = first ++ later := by
  generalize hphrase : Phrase.arguments count = phrase at hinner
  induction hinner generalizing count separators with
  | argument hfirst _ =>
    cases hphrase
    exact ⟨_, _, hfirst, .call hright hoperations hrest, rfl⟩
  | @arguments first _ separator count' hfirst hseparator _ _ ih =>
    cases hphrase
    obtain ⟨next, later, hnext, hlater, hsplit⟩ := ih (separators + 1) rfl
    rw [show separators + 1 + count' = separators + (count' + 1) by omega] at hlater
    refine ⟨first, separator :: (next ++ later), hfirst, .argument hseparator hnext hlater, ?_⟩
    rw [List.append_assoc, List.cons_append, hsplit]
  | _ => cases hphrase

/-- An expression and what closes the call around it are the arguments that were still due. -/
theorem arguments_of_closes {first later : List Token} {outer : List Opening} {name : String}
    {arity separators : Nat} (hfirst : Derives table .expression first)
    (hlater : Closes table (.call name arity separators :: outer) later) :
    ∃ count inner right operations rest, arity = separators + count ∧
      Derives table (.arguments count) inner ∧ right.kind = .rbracket ∧
      Derives table .operations operations ∧ Closes table outer rest ∧
      first ++ later = inner ++ right :: (operations ++ rest) := by
  generalize hopenings : Opening.call name arity separators :: outer = openings at hlater
  induction hlater generalizing first separators with
  | outside => cases hopenings
  | group _ _ _ _ => cases hopenings
  | call hright hoperations hrest _ =>
    cases hopenings
    exact ⟨1, _, _, _, _, rfl, .argument hfirst, hright, hoperations, hrest, rfl⟩
  | @argument separator next rest _ _ _ _ hseparator hnext _ ih =>
    cases hopenings
    obtain ⟨count, inner, right, operations, after, harity, hinner, hright, hoperations, hafter,
      hsplit⟩ := ih hnext rfl
    refine ⟨count + 1, first ++ separator :: inner, right, operations, after, by omega,
      .arguments hfirst hseparator hinner, hright, hoperations, hafter, ?_⟩
    rw [hsplit, List.append_assoc, List.cons_append]

/-! ### What completes a nesting, by its state -/

namespace Completes
variable {n : Nesting} {tokens : List Token}

theorem of_expression (h : Completes table n tokens) (hstate : n.state.admits .unary = true) :
    ∃ next rest, tokens = next ++ rest ∧ Derives table .expression next ∧
      Closes table n.openings rest := by
  cases h with
  | expression _ hnext hrest => exact ⟨_, _, rfl, hnext, hrest⟩
  | operand hs => rw [hs] at hstate; cases hstate
  | operations hs => rw [State.admits_unary_of_accepting hs] at hstate; cases hstate
  | arguments hs => rw [hs] at hstate; cases hstate

theorem of_operand (h : Completes table n tokens) (hstate : n.state = .after .unary) :
    ∃ next operations rest, tokens = next ++ (operations ++ rest) ∧ Derives table .operand next ∧
      Derives table .operations operations ∧ Closes table n.openings rest := by
  cases h with
  | expression hs => rw [hstate] at hs; cases hs
  | operand _ hnext hoperations hrest => exact ⟨_, _, _, rfl, hnext, hoperations, hrest⟩
  | operations hs => rw [hstate] at hs; cases hs
  | arguments hs => rw [hstate] at hs; cases hs

theorem of_operations (h : Completes table n tokens) (hstate : n.state.accepting = true) :
    ∃ operations rest, tokens = operations ++ rest ∧ Derives table .operations operations ∧
      Closes table n.openings rest := by
  cases h with
  | expression hs => rw [State.admits_unary_of_accepting hstate] at hs; cases hs
  | operand hs => rw [hs] at hstate; cases hstate
  | operations _ hoperations hrest => exact ⟨_, _, rfl, hoperations, hrest⟩
  | arguments hs => rw [hs] at hstate; cases hstate

theorem of_arguments (h : Completes table n tokens) (hstate : n.state = .after .function) :
    ∃ left inner right operations rest name arity,
      tokens = left :: (inner ++ right :: (operations ++ rest)) ∧ n.callee = some (name, arity) ∧
      left.kind = .lbracket ∧ Derives table (.arguments arity) inner ∧ right.kind = .rbracket ∧
      Derives table .operations operations ∧ Closes table n.openings rest := by
  cases h with
  | expression hs => rw [hstate] at hs; cases hs
  | operand hs => rw [hstate] at hs; cases hs
  | operations hs => rw [hstate] at hs; cases hs
  | arguments _ hcallee hleft hinner hright hoperations hrest =>
    exact ⟨_, _, _, _, _, _, _, rfl, hcallee, hleft, hinner, hright, hoperations, hrest⟩

/-- Where an operand may come next, one with its operations and what closes the brackets will do. -/
theorem of_expectsOperand (hstate : n.state.ExpectsOperand) {next operations rest : List Token}
    (hnext : Derives table .operand next) (hoperations : Derives table .operations operations)
    (hrest : Closes table n.openings rest) : Completes table n (next ++ (operations ++ rest)) := by
  rcases hstate with hs | hs
  · rw [← List.append_assoc]
    exact .expression hs (.expression (.unsigned hnext) hoperations) hrest
  · exact .operand hs hnext hoperations hrest

end Completes

/-! ### One token -/

/-- The first token of an operand is taken, and the rest of the operand completes what is reached. -/
theorem operand_taken {n : Nesting} (h : n.Announced) (hstate : n.state.ExpectsOperand)
    {next operations closing : List Token} (hnext : Derives table .operand next)
    (hoperations : Derives table .operations operations) (hclosing : Closes table n.openings closing)
    {token : Token} {rest : List Token} (hsplit : next ++ (operations ++ closing) = token :: rest) :
    ∃ reached, n.state.admits token.kind = true ∧ Taken table token n reached ∧
      Completes table reached rest := by
  have hadmits : ∀ kind : TokenKind, kind.isLeaf = true ∨ kind = .function ∨ kind = .lbracket →
      n.state.admits kind = true := fun _ => State.admits_of_expectsOperand hstate
  have hcallee : n.callee = none := callee_eq_none h (hadmits .var (.inl rfl)) (by decide)
  cases hnext with
  | leaf hleaf =>
    rw [List.singleton_append] at hsplit
    cases hsplit
    refine ⟨_, hadmits _ (.inl hleaf), .plain (.inl hleaf) hcallee, ?_⟩
    refine .operations ?_ hoperations hclosing
    cases hk : token.kind <;> simp_all [TokenKind.isLeaf, State.accepting]
  | group hleft hinner hright =>
    rw [List.cons_append, List.append_assoc, List.singleton_append] at hsplit
    cases hsplit
    refine ⟨_, hadmits _ (.inr (.inr hleft)), .opens hleft, ?_⟩
    refine .expression (by rw [hleft]; rfl) hinner ?_
    rw [opening, hcallee]
    exact .group hright hoperations hclosing
  | call hname harity hleft hinner hright =>
    rw [List.cons_append, List.cons_append, List.append_assoc, List.singleton_append] at hsplit
    cases hsplit
    refine ⟨_, hadmits _ (.inr (.inl hname)), .name hname harity, ?_⟩
    exact .arguments (by rw [hname]) rfl hleft hinner hright hoperations hclosing

/-- The first token of what completes a nesting is taken, and the others complete what is reached. -/
theorem completes_step {n : Nesting} (h : n.Announced) {token : Token} {rest : List Token}
    (hc : Completes table n (token :: rest)) :
    ∃ reached, n.state.admits token.kind = true ∧ Taken table token n reached ∧
      Completes table reached rest := by
  generalize htokens : token :: rest = tokens at hc
  cases hc with
  | @expression _ closing hstate hnext hclosing =>
    cases hnext with
    | @expression _ operations hterm hoperations =>
      rw [List.append_assoc] at htokens
      cases hterm with
      | unsigned hoperand =>
        exact operand_taken h (.inl hstate) hoperand hoperations hclosing htokens.symm
      | signed hsign hoperand =>
        rw [List.cons_append] at htokens
        cases htokens
        have hadmits : n.state.admits token.kind = true := hsign ▸ hstate
        have hcallee := callee_eq_none h hadmits (by simp [hsign])
        exact ⟨_, hadmits, .plain (.inr (.inr hsign)) hcallee,
          .operand (by rw [hsign]) hoperand hoperations hclosing⟩
  | operand hstate hnext hoperations hclosing =>
    exact operand_taken h (.inr hstate) hnext hoperations hclosing htokens.symm
  | operations hstate hoperations hclosing =>
    have hadmits : ∀ kind, kind = .binary ∨ kind = .rbracket ∨ kind = .separator →
        n.state.admits kind = true := fun _ hkind => (State.accepting_iff_admits hkind).trans hstate
    have hcallee : n.callee = none :=
      callee_eq_none h (hadmits .binary (.inl rfl)) (by decide)
    cases hoperations with
    | operation hoperator hterm hoperations =>
      rw [List.cons_append] at htokens
      cases htokens
      exact ⟨_, hadmits _ (.inl hoperator), .plain (.inr (.inl hoperator)) hcallee,
        .expression (by rw [hoperator]; rfl) (.expression hterm hoperations) hclosing⟩
    | done =>
      rw [List.nil_append] at htokens
      generalize hopen : n.openings = openings at hclosing
      cases hclosing with
      | outside => cases htokens
      | group hright hoperations hrest =>
        cases htokens
        exact ⟨_, hadmits _ (.inr (.inl hright)), .closesGroup hright hopen hcallee,
          .operations (by rw [hright]; rfl) hoperations hrest⟩
      | call hright hoperations hrest =>
        cases htokens
        exact ⟨_, hadmits _ (.inr (.inl hright)), .closesCall hright hopen hcallee,
          .operations (by rw [hright]; rfl) hoperations hrest⟩
      | argument hseparator hnext hrest =>
        cases htokens
        exact ⟨_, hadmits _ (.inr (.inr hseparator)), .separates hseparator hopen hcallee,
          .expression (by rw [hseparator]; rfl) hnext hrest⟩
  | arguments hstate hcallee hleft hinner hright hoperations hclosing =>
    cases htokens
    obtain ⟨first, later, hfirst, hlater, hsplit⟩ :=
      closes_of_arguments 0 hinner hright hoperations hclosing
    refine ⟨_, by rw [hstate, hleft]; rfl, .opens hleft, ?_⟩
    rw [hsplit]
    refine .expression (by rw [hleft]; rfl) hfirst ?_
    rw [opening, hcallee]
    simpa only [Nat.zero_add] using hlater

/-- In front of what completes the nesting that a token leads to, the token completes the
nesting before it. -/
theorem completes_of_taken {n reached : Nesting} {token : Token} {rest : List Token}
    (h : n.Announced) (hadmits : n.state.admits token.kind = true)
    (htaken : Taken table token n reached) (hc : Completes table reached rest) :
    Completes table n (token :: rest) := by
  cases htaken with
  | name hkind harity =>
    obtain ⟨left, inner, right, operations, later, name, arity, rfl, hcallee, hleft, hinner, hright,
      hoperations, hlater⟩ := hc.of_arguments (by rw [hkind])
    cases hcallee
    have hstate := State.expectsOperand_of_admits hadmits (.inr hkind)
    simpa only [List.cons_append, List.append_assoc, List.nil_append] using
      Completes.of_expectsOperand hstate (.call hkind harity hleft hinner hright) hoperations hlater
  | opens hkind =>
    obtain ⟨next, later, rfl, hnext, hlater⟩ := hc.of_expression (by rw [hkind]; rfl)
    rw [hkind] at hadmits
    rcases State.expectsOperand_or_of_admits_lbracket hadmits with hstate | hstate
    · have hcallee : n.callee = none := callee_eq_none h
        (State.admits_of_expectsOperand hstate (.inl rfl) : n.state.admits .var = true) (by decide)
      rw [opening, hcallee] at hlater
      cases hlater with
      | group hright hoperations hrest =>
        simpa only [List.cons_append, List.append_assoc, List.nil_append] using
          Completes.of_expectsOperand hstate (.group hkind hnext hright) hoperations hrest
    · obtain ⟨⟨name, arity⟩, hcallee⟩ := Option.isSome_iff_exists.mp (h.mpr hstate)
      rw [opening, hcallee] at hlater
      obtain ⟨count, inner, right, operations, after, harity, hinner, hright, hoperations, hafter,
        hsplit⟩ := arguments_of_closes hnext hlater
      rw [Nat.zero_add] at harity
      cases harity
      rw [hsplit]
      exact .arguments hstate hcallee hkind hinner hright hoperations hafter
  | closesGroup hkind hopen hcallee =>
    obtain ⟨operations, later, rfl, hoperations, hlater⟩ := hc.of_operations (by rw [hkind]; rfl)
    have hstate := (State.accepting_iff_admits (.inr (.inl hkind))).symm.trans hadmits
    exact .operations hstate .done (hopen ▸ .group hkind hoperations hlater)
  | closesCall hkind hopen hcallee =>
    obtain ⟨operations, later, rfl, hoperations, hlater⟩ := hc.of_operations (by rw [hkind]; rfl)
    have hstate := (State.accepting_iff_admits (.inr (.inl hkind))).symm.trans hadmits
    exact .operations hstate .done (hopen ▸ .call hkind hoperations hlater)
  | separates hkind hopen hcallee =>
    obtain ⟨next, later, rfl, hnext, hlater⟩ := hc.of_expression (by rw [hkind]; rfl)
    have hstate := (State.accepting_iff_admits (.inr (.inr hkind))).symm.trans hadmits
    exact .operations hstate .done (hopen ▸ .argument hkind hnext hlater)
  | plain hkind hcallee =>
    rcases hkind with hleaf | hoperator | hsign
    · have haccepting : (State.after token.kind).accepting = true := by
        cases hk : token.kind <;> simp_all [TokenKind.isLeaf, State.accepting]
      obtain ⟨operations, later, rfl, hoperations, hlater⟩ := hc.of_operations haccepting
      have hstate := State.expectsOperand_of_admits hadmits (.inl hleaf)
      exact Completes.of_expectsOperand hstate (.leaf hleaf) hoperations hlater
    · obtain ⟨next, later, rfl, hnext, hlater⟩ := hc.of_expression (by rw [hoperator]; rfl)
      have hstate := (State.accepting_iff_admits (.inl hoperator)).symm.trans hadmits
      cases hnext with
      | expression hterm hoperations =>
        exact .operations hstate (.operation hoperator hterm hoperations) hlater
    · obtain ⟨next, operations, later, rfl, hnext, hoperations, hlater⟩ :=
        hc.of_operand (by rw [hsign])
      rw [hsign] at hadmits
      simpa only [List.cons_append, List.append_assoc] using
        Completes.expression hadmits (.expression (.signed hsign hnext) hoperations) hlater

/-! ### Whole runs -/

theorem completes_nil_iff (n : Nesting) : Completes table n [] ↔ n.finish = .ok () := by
  constructor
  · intro hc
    generalize htokens : ([] : List Token) = tokens at hc
    cases hc with
    | expression _ hnext _ =>
      exact absurd (List.append_eq_nil_iff.mp htokens.symm).1 hnext.expression_ne_nil
    | operand _ hnext _ _ =>
      exact absurd (List.append_eq_nil_iff.mp htokens.symm).1 hnext.operand_ne_nil
    | operations hstate _ hrest =>
      rw [(List.append_eq_nil_iff.mp htokens.symm).2] at hrest
      generalize hopen : n.openings = openings at hrest
      cases hrest
      simp [finish, hopen, hstate]
    | arguments => cases htokens
  · intro hfinish
    obtain ⟨hopen, hstate⟩ := (finish_eq_ok_iff n).mp hfinish
    exact .operations hstate .done (hopen ▸ .outside)

/-- **The token lists that complete a nesting are those on which a run from it ends well.** -/
theorem completes_iff {n : Nesting} (h : n.Announced) (tokens : List Token) :
    Completes table n tokens ↔ (n.run table tokens).bind finish = .ok () := by
  induction tokens generalizing n with
  | nil => exact completes_nil_iff n
  | cons token rest ih =>
    constructor
    · intro hc
      obtain ⟨reached, hadmits, htaken, hrest⟩ := completes_step h hc
      rw [run_of_taken h hadmits htaken]
      exact (ih htaken.announced).mp hrest
    · intro haccepted
      obtain ⟨last, hrun, hfinish⟩ := bind_eq_ok_iff.mp haccepted
      obtain ⟨reached, hadmits, htaken, hrest⟩ := exists_taken_of_run h hrun
      have hends : (reached.run table rest).bind finish = .ok () := bind_eq_ok_iff.mpr ⟨last, hrest, hfinish⟩
      exact completes_of_taken h hadmits htaken ((ih htaken.announced).mpr hends)

theorem verdict_eq_ok_iff (tokens : List Token) :
    verdict table tokens = .ok () ↔ Derives table .expression tokens := by
  rw [verdict, ← completes_iff initial_announced]
  constructor
  · intro hc
    obtain ⟨next, rest, rfl, hnext, hrest⟩ := hc.of_expression rfl
    cases hrest
    rwa [List.append_nil]
  · intro hderives
    rw [← List.append_nil tokens]
    exact .expression rfl hderives .outside

end Nesting

/-- **A scan accepts exactly the expressions of the grammar over its table**, and which
lists those are depends on nothing of the tokens but their kinds and the names of functions. -/
theorem Scanner.accepts_iff_derives (table : Dialect) (tokens : List Token) :
    (((Scanner.ofTable table).scan tokens).2.result = .ok () ↔ Derives table .expression tokens) ∧
      ∀ others : List Token, others.map Token.shape = tokens.map Token.shape →
        (Derives table .expression others ↔ Derives table .expression tokens) := by
  refine ⟨?_, fun others hshape => ⟨fun h => h.of_shape hshape.symm, fun h => h.of_shape hshape⟩⟩
  have hresult : ((Scanner.ofTable table).scan tokens).2.result = Nesting.verdict table tokens :=
    Nesting.run_finish_session Nesting.initial_announced tokens
  rw [hresult, Nesting.verdict_eq_ok_iff]

end Formula
