import Mathlib.Data.List.Forall2
import Formula.Proofs.Acceptance
import Formula.Proofs.Refusal

/-! What a scan can tell apart.

Of a token a scan sees its kind, but a variable, a constant and a number are the same to
it, and of a function name the number of arguments in the table. Everything else of the
texts and of the tables only shows in the errors. So two scans of lists that look alike
in this way go in step, token by token: what one session remembers of its open calls the
other remembers of its own ones, at the same places (`Session.Alike`). Both succeed, or
both fail at the same place for the same cause (`Scanner.scan_noninterference`). -/
namespace Formula

/-! ### Tokens that look alike -/

/-- The same kind, or two kinds that stand for a value by themselves. -/
def TokenKind.Alike (kind other : TokenKind) : Prop :=
  other = kind ∨ kind.isLeaf = true ∧ other.isLeaf = true

inductive State.Alike : State → State → Prop where
  | start : Alike .start .start
  | after {kind other : TokenKind} (h : kind.Alike other) : Alike (.after kind) (.after other)

/-- The tokens are of one kind, and a function takes as many arguments in the one table as in the other. -/
structure Token.Alike (table otherTable : Dialect) (token other : Token) : Prop where
  kind : token.kind.Alike other.kind
  arity : token.kind = .function → table.arity token.text = otherTable.arity other.text

/-- The errors have the same cause at the same place, and each names what stands there in its own list. -/
inductive Error.Alike (tokens others : List Token) : Error → Error → Prop where
  | unexpected {state otherState : State} {position : Nat} (hstate : state.Alike otherState) :
    Alike tokens others (.violation (.unexpectedToken tokens[position]? state position))
      (.violation (.unexpectedToken others[position]? otherState position))
  | mismatch {i expected actual : Nat} {name otherName : Token} {mismatch : Mismatch}
      (hname : tokens[i]? = some name) (hother : others[i]? = some otherName) (hkind : name.kind = .function) :
    Alike tokens others (.violation (.arityMismatch name.text expected actual mismatch))
      (.violation (.arityMismatch otherName.text expected actual mismatch))
  | unbalanced {missing : Bracket} :
    Alike tokens others (.violation (.unbalancedBrackets missing)) (.violation (.unbalancedBrackets missing))
  | unknown {i : Nat} {name otherName : Token} (hname : tokens[i]? = some name)
      (hother : others[i]? = some otherName) (hkind : name.kind = .function) :
    Alike tokens others (.unknownFunction name.text) (.unknownFunction otherName.text)

/-- Both succeed with values that are related, or both fail with errors that are. -/
inductive Agree {α β : Type} (values : α → β → Prop) (errors : Error → Error → Prop) :
    Except Error α → Except Error β → Prop where
  | ok {a : α} {b : β} (h : values a b) : Agree values errors (.ok a) (.ok b)
  | error {e f : Error} (h : errors e f) : Agree values errors (.error e) (.error f)

section
variable {α β γ δ : Type} {values : α → β → Prop} {results : γ → δ → Prop} {errors : Error → Error → Prop}
variable {x : Except Error α} {y : Except Error β}

theorem Agree.bind {f : α → Except Error γ} {g : β → Except Error δ} (h : Agree values errors x y)
    (hnext : ∀ a b, values a b → Agree results errors (f a) (g b)) :
    Agree results errors (x.bind f) (y.bind g) := by
  cases h with
  | ok hvalues => exact hnext _ _ hvalues
  | error herrors => exact .error herrors

theorem Agree.map {f : α → γ} {g : β → δ} (h : Agree values errors x y)
    (hnext : ∀ a b, values a b → results (f a) (g b)) : Agree results errors (x.map f) (y.map g) := by
  cases h with
  | ok hvalues => exact .ok (hnext _ _ hvalues)
  | error herrors => exact .error herrors

theorem Agree.eq_ok_iff {y : Except Error α} (h : Agree (· = ·) errors x y) (a : α) : x = .ok a ↔ y = .ok a := by
  cases h with
  | ok hvalues => rw [hvalues]
  | error herrors => exact ⟨fun hx => (nomatch hx), fun hy => (nomatch hy)⟩

theorem Agree.of_error {e : Error} (h : Agree values errors x y) (hx : x = .error e) :
    ∃ f, y = .error f ∧ errors e f := by
  cases h with
  | ok hvalues => cases hx
  | error herrors =>
    cases hx
    exact ⟨_, rfl, herrors⟩

end

/-! ### What the grammar sees -/

section
variable {kind other : TokenKind} {state otherState : State}

theorem TokenKind.Alike.isLeaf (h : kind.Alike other) : other.isLeaf = kind.isLeaf := by
  rcases h with rfl | ⟨hkind, hother⟩
  · rfl
  · rw [hkind, hother]

theorem TokenKind.Alike.eq (h : kind.Alike other) (hkind : kind.isLeaf = false) : other = kind := by
  rcases h with heq | ⟨hleaf, -⟩
  · exact heq
  · rw [hkind] at hleaf
    cases hleaf

/-- What stands for a value is followed as a variable is. -/
theorem State.admits_after_leaf (hkind : kind.isLeaf = true) (next : TokenKind) :
    (State.after kind).admits next = (State.after .var).admits next := by
  cases kind with
  | var => rfl
  | const => rfl
  | number => rfl
  | _ => cases hkind

/-- What stands for a value may stand where a variable may. -/
theorem State.admits_leaf (state : State) (hkind : kind.isLeaf = true) :
    state.admits kind = state.admits .var := by
  cases kind with
  | var => rfl
  | const =>
    cases state with
    | start => rfl
    | after last => cases last <;> rfl
  | number =>
    cases state with
    | start => rfl
    | after last => cases last <;> rfl
  | _ => cases hkind

theorem State.Alike.admits (h : state.Alike otherState) (hkind : kind.Alike other) :
    otherState.admits other = state.admits kind := by
  have hnext : ∀ state : State, state.admits other = state.admits kind := by
    intro state
    rcases hkind with rfl | ⟨hleaf, hother⟩
    · rfl
    · rw [admits_leaf state hleaf, admits_leaf state hother]
  cases h with
  | start => exact hnext .start
  | after hlast =>
    rcases hlast with rfl | ⟨hleaf, hother⟩
    · exact hnext _
    · rw [admits_after_leaf hleaf, admits_after_leaf hother, hnext]

theorem State.Alike.accepting (h : state.Alike otherState) : otherState.accepting = state.accepting := by
  rw [← accepting_iff_admits (.inl rfl), ← accepting_iff_admits (.inl rfl)]
  exact h.admits (.inl rfl)

end

namespace Session

/-! ### Sessions that look alike -/

/-- The calls differ in nothing but their names, which stand at the same place of each list. -/
structure CallAlike (tokens others : List Token) (call other : Call) : Prop where
  name : ∃ (i : Nat) (name otherName : Token), tokens[i]? = some name ∧ others[i]? = some otherName ∧
    name.kind = .function ∧ call.name = name.text ∧ other.name = otherName.text
  arity : other.arity = call.arity
  separators : other.separators = call.separators
  outerDepth : other.outerDepth = call.outerDepth

structure Alike (tokens others : List Token) (s t : Session) : Prop where
  state : s.state.Alike t.state
  position : t.position = s.position
  depth : t.depth = s.depth
  calls : List.Forall₂ (CallAlike tokens others) s.calls t.calls

variable {table otherTable : Dialect} {tokens others : List Token} {token other : Token} {s t : Session}

theorem initial_alike : initial.Alike tokens others initial := ⟨.start, rfl, rfl, .nil⟩

/-- Both have an own call, or neither has one. -/
theorem Alike.ownCall? (h : s.Alike tokens others t) :
    Option.Rel (fun own otherOwn => CallAlike tokens others own.1 otherOwn.1 ∧
      List.Forall₂ (CallAlike tokens others) own.2 otherOwn.2) s.ownCall? t.ownCall? := by
  have hcalls := h.calls
  unfold Session.ownCall?
  rw [h.depth]
  generalize s.calls = calls at hcalls
  generalize t.calls = otherCalls at hcalls
  cases hcalls with
  | nil => exact .none
  | cons hcall houter =>
    simp only [hcall.outerDepth]
    split
    · exact .some ⟨hcall, houter⟩
    · exact .none

theorem Alike.unexpected (h : s.Alike tokens others t) :
    Error.Alike tokens others (s.unexpected tokens[s.position]?) (t.unexpected others[t.position]?) := by
  unfold Session.unexpected
  rw [h.position]
  exact .unexpected h.state

theorem CallAlike.checkArity {call otherCall : Call} (h : CallAlike tokens others call otherCall) :
    Agree (· = ·) (Error.Alike tokens others) (checkArity call.name call.arity (call.separators + 1))
      (checkArity otherCall.name otherCall.arity (otherCall.separators + 1)) := by
  obtain ⟨i, name, otherName, hname, hother, hkind, hcallee, hotherCallee⟩ := h.name
  rw [h.arity, h.separators, hcallee, hotherCallee]
  unfold Formula.checkArity
  split
  · exact .ok rfl
  · exact .error (.mismatch hname hother hkind)

theorem CallAlike.separated {call otherCall : Call} (h : CallAlike tokens others call otherCall) :
    CallAlike tokens others { call with separators := call.separators + 1 }
      { otherCall with separators := otherCall.separators + 1 } :=
  ⟨h.name, h.arity, congrArg (· + 1) h.separators, h.outerDepth⟩

theorem enter_of_isLeaf (h : token.kind.isLeaf = true) : s.enter table token = .ok s := by
  unfold enter
  split <;> simp_all [TokenKind.isLeaf]

/-- What a token does to the one session it does to the other. -/
theorem Alike.enter (h : s.Alike tokens others t) (htoken : token.Alike table otherTable other)
    (hat : tokens[s.position]? = some token) (hother : others[t.position]? = some other) :
    Agree (fun next otherNext => next.Alike tokens others otherNext ∧ next.position = s.position)
      (Error.Alike tokens others) (s.enter table token) (t.enter otherTable other) := by
  cases hleaf : token.kind.isLeaf with
  | true =>
    rw [enter_of_isLeaf hleaf, enter_of_isLeaf (htoken.kind.isLeaf.trans hleaf)]
    exact .ok ⟨h, rfl⟩
  | false =>
    have hsame : other.kind = token.kind := htoken.kind.eq hleaf
    have hown := h.ownCall?
    cases hk : token.kind with
    | function =>
      rw [hk] at hsame
      simp only [Session.enter, hk, hsame, ← htoken.arity hk]
      rw [h.position] at hother
      cases table.arity token.text with
      | none => exact .error (.unknown hat hother hk)
      | some arity =>
        have hcall : CallAlike tokens others ⟨token.text, arity, 0, s.depth⟩ ⟨other.text, arity, 0, t.depth⟩ :=
          ⟨⟨s.position, token, other, hat, hother, hk, rfl, rfl⟩, rfl, rfl, h.depth⟩
        exact .ok ⟨⟨h.state, h.position, h.depth, .cons hcall h.calls⟩, rfl⟩
    | lbracket =>
      rw [hk] at hsame
      simp only [Session.enter, hk, hsame]
      exact .ok ⟨⟨h.state, h.position, congrArg (· + 1) h.depth, h.calls⟩, rfl⟩
    | rbracket =>
      rw [hk] at hsame
      simp only [Session.enter, hk, hsame, h.depth]
      split
      · exact .error .unbalanced
      · generalize s.ownCall? = own at hown
        generalize t.ownCall? = otherOwn at hown
        cases hown with
        | none => exact .ok ⟨⟨h.state, h.position, rfl, h.calls⟩, rfl⟩
        | some hcalls =>
          exact hcalls.1.checkArity.map fun _ _ _ => ⟨⟨h.state, h.position, rfl, hcalls.2⟩, rfl⟩
    | separator =>
      rw [hk] at hsame
      simp only [Session.enter, hk, hsame, ← hat, ← hother]
      generalize s.ownCall? = own at hown
      generalize t.ownCall? = otherOwn at hown
      cases hown with
      | none => exact .error h.unexpected
      | some hcalls =>
        exact .ok ⟨⟨h.state, h.position, h.depth, .cons hcalls.1.separated hcalls.2⟩, rfl⟩
    | binary | unary =>
      rw [hk] at hsame
      simp only [Session.enter, hk, hsame]
      exact .ok ⟨h, rfl⟩
    | _ =>
      rw [hk] at hleaf
      cases hleaf

theorem Alike.advance (h : s.Alike tokens others t) {kind otherKind : TokenKind} (hkind : kind.Alike otherKind) :
    (s.advance kind).Alike tokens others (t.advance otherKind) :=
  ⟨.after hkind, congrArg (· + 1) h.position, h.depth, h.calls⟩

theorem Alike.step (h : s.Alike tokens others t) (htoken : token.Alike table otherTable other)
    (hat : tokens[s.position]? = some token) (hother : others[t.position]? = some other) :
    Agree (fun next otherNext => next.Alike tokens others otherNext ∧ next.position = s.position + 1)
      (Error.Alike tokens others) (s.step .arithmetic table token) (t.step .arithmetic otherTable other) := by
  unfold Session.step
  simp only [Grammar.arithmetic_accepts, h.state.admits htoken.kind]
  split
  · refine (h.enter htoken hat hother).map fun next otherNext hnext => ⟨hnext.1.advance htoken.kind, ?_⟩
    exact congrArg (· + 1) hnext.2
  · rw [← hat, ← hother]
    exact .error h.unexpected

theorem Alike.finish (h : s.Alike tokens others t) (hend : tokens[s.position]? = none)
    (hotherEnd : others[t.position]? = none) :
    Agree (· = ·) (Error.Alike tokens others) s.finish t.finish := by
  have hrefused := h.unexpected
  rw [hend, hotherEnd] at hrefused
  unfold Session.finish
  rw [h.depth, h.state.accepting]
  split
  · exact .error .unbalanced
  · split
    · exact .ok rfl
    · exact .error hrefused

/-! ### Whole runs -/

/-- From sessions that look alike, what is left of the lists is scanned alike. -/
theorem Alike.run_finish {rest otherRest : List Token}
    (hrest : List.Forall₂ (Token.Alike table otherTable) rest otherRest) (h : s.Alike tokens others t)
    (hleft : tokens.drop s.position = rest) (hotherLeft : others.drop t.position = otherRest) :
    Agree (· = ·) (Error.Alike tokens others) ((s.run .arithmetic table rest).bind Session.finish)
      ((t.run .arithmetic otherTable otherRest).bind Session.finish) := by
  induction hrest generalizing s t with
  | nil =>
    refine h.finish ?_ ?_
    · rw [← List.head?_drop, hleft, List.head?_nil]
    · rw [← List.head?_drop, hotherLeft, List.head?_nil]
  | @cons token other rest otherRest htoken _ ih =>
    have hat : tokens[s.position]? = some token := by rw [← List.head?_drop, hleft, List.head?_cons]
    have hother : others[t.position]? = some other := by rw [← List.head?_drop, hotherLeft, List.head?_cons]
    rw [Session.run, Session.run, bind_bind, bind_bind]
    refine (h.step htoken hat hother).bind ?_
    rintro next otherNext ⟨hnext, hposition⟩
    refine ih hnext ?_ ?_
    · rw [hposition, ← List.tail_drop, hleft, List.tail_cons]
    · rw [hnext.position, hposition, ← h.position, ← List.tail_drop, hotherLeft, List.tail_cons]

/-- Of a table a run reads the arities of the functions that are named. -/
theorem run_of_arities (grammar : Grammar) (htables : ∀ token ∈ tokens, token.kind = .function →
      otherTable.arity token.text = table.arity token.text) :
    s.run grammar otherTable tokens = s.run grammar table tokens := by
  induction tokens generalizing s with
  | nil => rfl
  | cons token rest ih =>
    obtain ⟨htoken, hrest⟩ := List.forall_mem_cons.mp htables
    have hstep : s.step grammar otherTable token = s.step grammar table token := by
      unfold Session.step Session.enter
      cases hk : token.kind <;> simp only [htoken, hk]
    simp only [Session.run, hstep, ih hrest]

end Session

/-- **Scans that cannot tell their tokens apart end alike**: if the kinds agree but for those that stand for
a value, and called functions take as many arguments, both lists are accepted, or both are refused for
the same cause at the same place. A table has no say but by the functions that are named. -/
theorem Scanner.scan_noninterference (table otherTable : Dialect) (session otherSession : Session)
    (tokens : List Token) :
    (∀ others, List.Forall₂ (Token.Alike table otherTable) tokens others →
      Agree (· = ·) (Error.Alike tokens others) (scanResult table session tokens)
        (scanResult otherTable otherSession others)) ∧
    ((∀ token ∈ tokens, token.kind = .function → otherTable.arity token.text = table.arity token.text) →
      scanResult otherTable otherSession tokens = scanResult table session tokens) := by
  refine ⟨fun others hothers => ?_, fun htables => ?_⟩
  · exact Session.Alike.run_finish hothers Session.initial_alike rfl rfl
  · rw [scanResult_eq, scanResult_eq, Session.run_of_arities .arithmetic htables]

/-- `sin(x,1)` and, where `f` is the only function, `f(2,e)` have an argument too many. -/
theorem Scanner.scan_noninterference_mismatch : ∃ other, Dialect.empty.withFunction "f" 1 = .ok other ∧
    scanResult other .initial [.function "f", .lbracket, .number "2", .separator, .const "e", .rbracket] =
      .error (.violation (.arityMismatch "f" 1 2 .tooMany)) ∧
    Agree (· = ·) (Error.Alike [.function "sin", .lbracket, .var "x", .separator, .number "1", .rbracket]
        [.function "f", .lbracket, .number "2", .separator, .const "e", .rbracket])
      (scanResult .default .initial [.function "sin", .lbracket, .var "x", .separator, .number "1", .rbracket])
      (scanResult other .initial [.function "f", .lbracket, .number "2", .separator, .const "e", .rbracket]) := by
  refine ⟨_, rfl, rfl, (Scanner.scan_noninterference .default _ .initial .initial _).1 _ ?_⟩
  have hsame : ∀ {table other : Dialect} {token : Token}, token.kind ≠ .function →
      token.Alike table other token := fun hkind => ⟨.inl rfl, fun hfunction => absurd hfunction hkind⟩
  exact .cons ⟨.inl rfl, fun _ => rfl⟩ (.cons (hsame (by decide)) (.cons ⟨.inr ⟨rfl, rfl⟩, fun h => nomatch h⟩
    (.cons (hsame (by decide)) (.cons ⟨.inr ⟨rfl, rfl⟩, fun h => nomatch h⟩ (.cons (hsame (by decide)) .nil)))))

end Formula
