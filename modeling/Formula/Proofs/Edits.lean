import Formula.Proofs.Completion

/-! What a small edit does to an accepted list.

A value turns a state where the input may not end into one where it may, and a binary
operator turns it back (`State.accepting_after`), and what may follow the one sort of
states may not follow the other. So where one such token is missing from an accepted
list, or stands twice, what comes next is refused at once (`Nesting.refused_of_opposite`),
before a bracket or a call can be at fault (`Scanner.corruption_caught`).

Signs are the other way round. What may follow a sign may stand in its place, so a run
without some of the signs keeps up with the run that has them (`Nesting.UpToSign`), and a
sign may be added wherever a term begins that has none (`Scanner.sign_edits_accepted`). -/
namespace Formula

/-! ### States -/

namespace State
variable {state other : State} {kind : TokenKind}

theorem not_accepting_of_admits (h : state.admits kind = true)
    (hkind : ¬(kind = .binary ∨ kind = .rbracket ∨ kind = .separator)) : state.accepting = false := by
  refine Bool.eq_false_iff.mpr fun haccepting => hkind ?_
  rw [admits_of_accepting haccepting] at h
  simpa [or_assoc] using h

/-- A value leads to where the input may end, and a binary operator away from there. -/
theorem accepting_after (h : state.admits kind = true) (hkind : kind.isLeaf = true ∨ kind = .binary) :
    (State.after kind).accepting = !state.accepting := by
  rcases hkind with hleaf | rfl
  · have hother : ¬(kind = .binary ∨ kind = .rbracket ∨ kind = .separator) := by
      rintro (rfl | rfl | rfl) <;> cases hleaf
    rw [not_accepting_of_admits h hother]
    cases kind with
    | var | const | number => rfl
    | _ => cases hleaf
  · rw [accepting_iff_admits (.inl rfl)] at h
    rw [h]
    rfl

/-- What may follow where the input may end follows nowhere else, and the other way round. -/
theorem not_admits_of_opposite (h : state.admits kind = true) (hother : other.accepting = !state.accepting) :
    other.admits kind = false := by
  by_cases hkind : kind = .binary ∨ kind = .rbracket ∨ kind = .separator
  · rw [accepting_iff_admits hkind] at h ⊢
    rw [hother, h]
    rfl
  · refine Bool.eq_false_iff.mpr fun hadmits => ?_
    rw [not_accepting_of_admits h hkind, not_accepting_of_admits hadmits hkind] at hother
    cases hother

theorem admits_of_admits_unary (h : state.admits .unary = true) (hkind : (State.after .unary).admits kind = true) :
    state.admits kind = true := by
  refine admits_of_expectsOperand (.inl h) ?_
  simpa [admits, or_assoc] using hkind

/-- What begins a term without a sign may follow a sign. -/
theorem admits_after_unary (h : state.admits .unary = true) (hadmits : state.admits kind = true)
    (hkind : kind ≠ .unary) : (State.after .unary).admits kind = true := by
  have hterm : (kind.isLeaf || kind == .function || kind == .lbracket || kind == .unary) = true := by
    cases state with
    | start => exact hadmits
    | after last =>
      cases last with
      | binary | lbracket | separator => exact hadmits
      | _ => cases h
  simpa [admits, hkind] using hterm

/-- A sign may come first, or where the token before begins an expression or asks for an operand. -/
theorem behind_take_admits_unary {tokens : List Token} {i : Nat} (hi : i ≤ tokens.length) :
    (behind (tokens.take i)).admits .unary = true ↔
      i = 0 ∨ ∃ before ∈ [TokenKind.binary, .lbracket, .separator], kindAt tokens (i - 1) = some before := by
  cases i with
  | zero => exact iff_of_true rfl (.inl rfl)
  | succ i =>
    have hat : tokens[i]? = some tokens[i] := List.getElem?_eq_getElem hi
    rw [List.take_succ_eq_append_getElem hi, behind_append, Nat.add_sub_cancel, kindAt, hat, Option.map_some]
    cases tokens[i].kind <;> simp [admits, TokenKind.isLeaf]

end State

/-! ### Edits of a list -/

/-- The tokens without some of the signs. -/
inductive SignsDropped : List Token → List Token → Prop where
  | nil : SignsDropped [] []
  | keep {token : Token} {tokens others : List Token} (h : SignsDropped tokens others) :
    SignsDropped (token :: tokens) (token :: others)
  | drop {sign : Token} {tokens others : List Token} (hsign : sign.kind = .unary)
      (h : SignsDropped tokens others) : SignsDropped (sign :: tokens) others

theorem SignsDropped.refl (tokens : List Token) : SignsDropped tokens tokens := by
  induction tokens with
  | nil => exact .nil
  | cons token rest ih => exact .keep ih

theorem insertIdx_eq_append {tokens : List Token} {i : Nat} (h : i ≤ tokens.length) (token : Token) :
    tokens.insertIdx i token = tokens.take i ++ token :: tokens.drop i := by
  obtain ⟨before, rest, rfl, rfl, hinsert⟩ := List.exists_of_modifyTailIdx (List.cons token) h
  rw [List.take_left, List.drop_left]
  exact hinsert

namespace Nesting
variable {table : Dialect} {token : Token} {tokens others rest : List Token} {n m next last : Nesting}

/-! ### A value or an operator too few or too many -/

/-- What completes a nesting is refused at once by one with the same brackets and a state of the other sort. -/
theorem refused_of_opposite (h : n.Announced) (hrun : n.run table rest = .ok last) (hfinish : last.finish = .ok ())
    (hopenings : m.openings = n.openings) (hopposite : m.state.accepting = !n.state.accepting) :
    (m.run table rest).bind finish = .error (m.unexpected rest.head?) := by
  cases rest with
  | nil =>
    cases hrun
    obtain ⟨hclosed, haccepting⟩ := (finish_eq_ok_iff n).mp hfinish
    rw [haccepting] at hopposite
    simp [run, Except.bind, finish, hopenings, hclosed, hopposite]
  | cons token rest =>
    obtain ⟨next, hadmits, -, -⟩ := exists_taken_of_run h hrun
    rw [run, step_refused (State.not_admits_of_opposite hadmits hopposite)]
    rfl

/-- A token that only moves the state leaves the brackets as they are. -/
theorem Taken.of_plain (h : Taken table token n next)
    (hkind : token.kind.isLeaf = true ∨ token.kind = .binary ∨ token.kind = .unary) :
    n.callee = none ∧ next = ⟨.after token.kind, n.position + 1, none, n.openings⟩ := by
  obtain ⟨⟨hleft, hright⟩, hseparator, hfunction⟩ := Token.inner_of_plain hkind
  cases h with
  | name hname => exact absurd hname hfunction
  | opens hopens => exact absurd hopens hleft
  | closesGroup hcloses => exact absurd hcloses hright
  | closesCall hcloses => exact absurd hcloses hright
  | separates hseparates => exact absurd hseparates hseparator
  | plain _ hcallee => exact ⟨hcallee, rfl⟩

/-! ### Signs -/

/-- What a token does is decided by the brackets alone. -/
theorem Taken.transfer (h : Taken table token n next) (hcallee : m.callee = n.callee)
    (hopenings : m.openings = n.openings) :
    Taken table token m { next with position := m.position + 1 } := by
  obtain ⟨state, position, callee, openings⟩ := m
  cases hcallee
  cases hopenings
  cases h with
  | name hkind harity => exact .name hkind harity
  | opens hkind => exact .opens hkind
  | closesGroup hkind hopen hcallee => exact .closesGroup hkind hopen hcallee
  | closesCall hkind hopen hcallee => exact .closesCall hkind hopen hcallee
  | separates hkind hopen hcallee => exact .separates hkind hopen hcallee
  | plain hkind hcallee => exact .plain hkind hcallee

/-- The nestings differ in the tokens taken only, or the one is behind a sign and the other where the sign was. -/
structure UpToSign (n m : Nesting) : Prop where
  callee : m.callee = n.callee
  openings : m.openings = n.openings
  state : m.state = n.state ∨ n.state = .after .unary ∧ m.state.admits .unary = true

namespace UpToSign

theorem admits (h : n.UpToSign m) {kind : TokenKind} (hadmits : n.state.admits kind = true) :
    m.state.admits kind = true := by
  rcases h.state with hsame | ⟨hsign, hdue⟩
  · rw [hsame, hadmits]
  · rw [hsign] at hadmits
    exact State.admits_of_admits_unary hdue hadmits

theorem announced (h : n.UpToSign m) (hn : n.Announced) : m.Announced := by
  unfold Announced at hn ⊢
  rw [h.callee, hn]
  rcases h.state with hsame | ⟨hsign, hdue⟩
  · rw [hsame]
  · -- Neither a sign nor what may come before one is a function name.
    refine iff_of_false (by rw [hsign]; decide) fun hname => ?_
    rw [hname] at hdue
    cases hdue

theorem finish (h : n.UpToSign m) (hfinish : n.finish = .ok ()) : m.finish = .ok () := by
  rw [finish_eq_ok_iff] at hfinish ⊢
  obtain ⟨hclosed, haccepting⟩ := hfinish
  refine ⟨h.openings.trans hclosed, ?_⟩
  rcases h.state with hsame | ⟨hsign, -⟩
  · rw [hsame, haccepting]
  · rw [hsign] at haccepting
    cases haccepting

end UpToSign

/-- A run that has left out some signs gets as far as the run that took them. -/
theorem run_of_signsDropped (hdropped : SignsDropped tokens others) (h : n.Announced) (hup : n.UpToSign m)
    (hrun : n.run table tokens = .ok last) :
    ∃ reached, m.run table others = .ok reached ∧ last.UpToSign reached := by
  induction hdropped generalizing n m with
  | nil =>
    cases hrun
    exact ⟨m, rfl, hup⟩
  | keep _ ih =>
    obtain ⟨next, hadmits, htaken, hrest⟩ := exists_taken_of_run h hrun
    have htakenToo := htaken.transfer hup.callee hup.openings
    rw [run_of_taken (hup.announced h) (hup.admits hadmits) htakenToo]
    exact ih htaken.announced ⟨rfl, rfl, .inl rfl⟩ hrest
  | drop hsign _ ih =>
    obtain ⟨next, hadmits, htaken, hrest⟩ := exists_taken_of_run h hrun
    obtain ⟨hcallee, rfl⟩ := htaken.of_plain (.inr (.inr hsign))
    have hdue : m.state.admits .unary = true := hup.admits (hsign ▸ hadmits)
    exact ih htaken.announced ⟨hup.callee.trans hcallee, hup.openings, .inr ⟨by rw [hsign], hdue⟩⟩ hrest

/-- What completes a nesting does so behind a sign as well exactly if the sign may come next and is the only one. -/
theorem run_sign_iff {sign : Token} (hsign : sign.kind = .unary) (h : n.Announced)
    (hrun : n.run table rest = .ok last) (hfinish : last.finish = .ok ()) :
    (n.run table (sign :: rest)).bind finish = .ok () ↔
      n.state.admits .unary = true ∧ ∃ token, rest.head? = some token ∧ token.kind ≠ .unary := by
  constructor
  · intro haccepted
    obtain ⟨reached, hsigned, hend⟩ := bind_eq_ok_iff.mp haccepted
    obtain ⟨next, hadmits, htaken, hbehind⟩ := exists_taken_of_run h hsigned
    obtain ⟨-, rfl⟩ := htaken.of_plain (.inr (.inr hsign))
    rw [hsign] at hadmits
    refine ⟨hadmits, ?_⟩
    cases rest with
    | nil =>
      -- Nothing ends behind a sign.
      cases hbehind
      have haccepting := ((finish_eq_ok_iff _).mp hend).2
      rw [hsign] at haccepting
      cases haccepting
    | cons token rest =>
      obtain ⟨-, hnext, -, -⟩ := exists_taken_of_run htaken.announced hbehind
      refine ⟨token, rfl, fun hsecond => ?_⟩
      rw [hsign, hsecond] at hnext
      cases hnext
  · rintro ⟨hdue, token, hhead, hkind⟩
    obtain ⟨rest, rfl⟩ := List.head?_eq_some_iff.mp hhead
    obtain ⟨next, hadmits, htaken, hlater⟩ := exists_taken_of_run h hrun
    have hcallee : n.callee = none := callee_eq_none h hdue (by decide)
    have hsigned : Taken table sign n ⟨.after sign.kind, n.position + 1, none, n.openings⟩ :=
      .plain (.inr (.inr hsign)) hcallee
    -- The brackets are those from before the sign, so the next token does here what it did there.
    have hbehind := htaken.transfer (m := ⟨.after sign.kind, n.position + 1, none, n.openings⟩) hcallee.symm rfl
    have hnext : (State.after sign.kind).admits token.kind = true :=
      hsign ▸ State.admits_after_unary hdue hadmits hkind
    rw [run_of_taken h (hsign ▸ hdue) hsigned, run_of_taken hsigned.announced hnext hbehind]
    obtain ⟨reached, hreached, hup⟩ := run_of_signsDropped (m := { next with position := n.position + 1 + 1 })
      (.refl rest) htaken.announced ⟨rfl, rfl, .inl rfl⟩ hlater
    exact bind_eq_ok_iff.mpr ⟨reached, hreached, hup.finish hfinish⟩

end Nesting

namespace Scanner
variable {table : Dialect} {session : Session} {before rest : List Token}

/-- Between two parts of an accepted list, the nesting that the one leads to is completed by the other. -/
theorem exists_nesting_between (h : scanResult table session (before ++ rest) = .ok ()) :
    ∃ n last, Nesting.initial.run table before = .ok n ∧ n.Announced ∧ n.Accounts before ∧
      n.run table rest = .ok last ∧ last.finish = .ok () := by
  rw [scanResult_eq_nesting] at h
  obtain ⟨last, hrun, hfinish⟩ := bind_eq_ok_iff.mp h
  obtain ⟨n, hbefore, hrest⟩ := Nesting.run_append_eq_ok_iff.mp hrun
  obtain ⟨hannounced, haccounts⟩ := Nesting.accounts_of_run hbefore
  exact ⟨n, last, hbefore, hannounced, haccounts, hrest, hfinish⟩

/-- **A value or a binary operator too few or too many is caught at the spot.** Without the token, the
next one is refused where it would stand, or the end of the input is, and with the token twice the
second is refused: neither a bracket nor a call is at fault first. -/
theorem corruption_caught (table : Dialect) (session : Session) (tokens : List Token) (i : Nat) (token : Token)
    (h : scanResult table session tokens = .ok ()) (hat : tokens[i]? = some token)
    (hkind : token.kind.isLeaf = true ∨ token.kind = .binary) :
    scanResult table session (tokens.eraseIdx i) =
        .error (.violation (.unexpectedToken tokens[i + 1]? (State.behind (tokens.take i)) i)) ∧
      scanResult table session (tokens.insertIdx i token) =
        .error (.violation (.unexpectedToken (some token) (.after token.kind) (i + 1))) := by
  obtain ⟨hi, hhere⟩ := List.getElem?_eq_some_iff.mp hat
  rw [eq_take_append_cons hat] at h
  obtain ⟨n, last, hbefore, hannounced, haccounts, hrun, hfinish⟩ := exists_nesting_between h
  have hposition : n.position = i := haccounts.position_take (Nat.le_of_lt hi)
  obtain ⟨next, hadmits, htaken, hrest⟩ := Nesting.exists_taken_of_run hannounced hrun
  obtain ⟨-, rfl⟩ := htaken.of_plain (hkind.imp_right .inl)
  have hopposite : (State.after token.kind).accepting = !n.state.accepting :=
    State.accepting_after hadmits hkind
  constructor
  · -- What was taken behind the token meets the state from before it, and the token itself the one behind it.
    have hrefused := Nesting.refused_of_opposite htaken.announced hrest hfinish
      (m := n) rfl (by rw [hopposite, Bool.not_not])
    rw [List.eraseIdx_eq_take_drop_succ, scanResult_append hbefore, hrefused, Nesting.unexpected,
      List.head?_drop, haccounts.state, hposition]
  · have hrefused := Nesting.refused_of_opposite hannounced hrun hfinish
      (m := ⟨.after token.kind, n.position + 1, none, n.openings⟩) rfl hopposite
    rw [insertIdx_eq_append (Nat.le_of_lt hi), scanResult_append hbefore, ← List.getElem_cons_drop hi, hhere,
      Nesting.run_of_taken hannounced hadmits htaken, hrefused, Nesting.unexpected, List.head?_cons, hposition]

/-- In `sin(x+1)` the plus is missing, or there twice. -/
theorem corruption_caught_plus :
    scanResult .default .initial [.function "sin", .lbracket, .var "x", .binary "+", .number "1", .rbracket] =
      .ok () ∧
    scanResult .default .initial [.function "sin", .lbracket, .var "x", .number "1", .rbracket] =
      .error (.violation (.unexpectedToken (some (.number "1")) (.after .var) 3)) ∧
    scanResult .default .initial
        [.function "sin", .lbracket, .var "x", .binary "+", .binary "+", .number "1", .rbracket] =
      .error (.violation (.unexpectedToken (some (.binary "+")) (.after .binary) 4)) :=
  ⟨rfl, corruption_caught .default .initial
    [.function "sin", .lbracket, .var "x", .binary "+", .number "1", .rbracket] 3 (.binary "+") rfl rfl (.inr rfl)⟩

/-- **An accepted list stays one without any of its signs, and with one more exactly where that is the
only sign of a term**: in front of a token that is none, and behind nothing or behind what a term follows. -/
theorem sign_edits_accepted (table : Dialect) (session : Session) (tokens : List Token)
    (h : scanResult table session tokens = .ok ()) :
    (∀ others, SignsDropped tokens others → scanResult table session others = .ok ()) ∧
      ∀ i sign, i ≤ tokens.length → sign.kind = .unary →
        (scanResult table session (tokens.insertIdx i sign) = .ok () ↔
          i < tokens.length ∧ kindAt tokens i ≠ some .unary ∧
            (i = 0 ∨ ∃ before ∈ [TokenKind.binary, .lbracket, .separator],
              kindAt tokens (i - 1) = some before)) := by
  refine ⟨fun others hdropped => ?_, fun i sign hi hsign => ?_⟩
  · have hall : scanResult table session ([] ++ tokens) = .ok () := h
    obtain ⟨n, last, hstart, hannounced, -, hrun, hfinish⟩ := exists_nesting_between hall
    obtain ⟨reached, hreached, hup⟩ :=
      Nesting.run_of_signsDropped hdropped hannounced ⟨rfl, rfl, .inl rfl⟩ hrun
    have hothers := scanResult_append hstart session others
    rw [hreached] at hothers
    exact hothers.trans (hup.finish hfinish)
  · rw [← List.take_append_drop i tokens] at h
    obtain ⟨n, last, hbefore, hannounced, haccounts, hrun, hfinish⟩ := exists_nesting_between h
    have hlegal := Nesting.run_sign_iff hsign hannounced hrun hfinish
    rw [insertIdx_eq_append hi, scanResult_append hbefore, hlegal, haccounts.state,
      State.behind_take_admits_unary hi, List.head?_drop]
    constructor
    · rintro ⟨hplace, token, hat, hkind⟩
      refine ⟨(List.getElem?_eq_some_iff.mp hat).1, ?_, hplace⟩
      rw [kindAt, hat]
      exact fun hunary => hkind (Option.some.inj hunary)
    · rintro ⟨hlt, hkind, hplace⟩
      have hat : tokens[i]? = some tokens[i] := List.getElem?_eq_getElem hlt
      exact ⟨hplace, tokens[i], hat, fun hunary => hkind (by rw [kindAt, hat, Option.map_some, hunary])⟩

/-- The sign of `-sin(x)` may go, and `x` may have one as well, but the call not a second one. -/
theorem sign_edits_accepted_call :
    scanResult .default .initial [.unary "-", .function "sin", .lbracket, .var "x", .rbracket] = .ok () ∧
    scanResult .default .initial [.function "sin", .lbracket, .var "x", .rbracket] = .ok () ∧
    scanResult .default .initial [.unary "-", .function "sin", .lbracket, .unary "-", .var "x", .rbracket] =
      .ok () ∧
    scanResult .default .initial [.unary "-", .unary "-", .function "sin", .lbracket, .var "x", .rbracket] ≠
      .ok () := by
  obtain ⟨hdropped, hinserted⟩ := sign_edits_accepted .default .initial
    [.unary "-", .function "sin", .lbracket, .var "x", .rbracket] rfl
  refine ⟨rfl, hdropped _ (.drop rfl (.refl _)), ?_, fun htwice => ?_⟩
  · refine (hinserted 3 (.unary "-") (by decide) rfl).mpr ⟨by decide, by decide, .inr ?_⟩
    exact ⟨.lbracket, by decide, rfl⟩
  · exact absurd rfl ((hinserted 0 (.unary "-") (by decide) rfl).mp htwice).2.1

end Scanner
end Formula
