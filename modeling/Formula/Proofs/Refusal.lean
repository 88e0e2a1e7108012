import Mathlib.Data.List.Chain
import Formula.Proofs.Bookkeeping

/-! Where a scan fails.

A scan takes tokens up to the first one that it refuses, or it takes them all and
the end of the input is refused. The error tells which it was: a token is refused
for one of the causes of `Session.Refuses`, and none of them refuses an end. So the
prefixes of a list pass exactly as far as its run gets (`Scanner.passes_iff`), the
token at which it stops is determined by the answers alone, and nothing that comes
after it matters (`Scanner.fails_at_first_violation`). -/
namespace Formula

/-- The errors of an input that ends too early: a bracket is open, or an operand is due. -/
def Error.atEnd : Error → Bool
  | .violation (.unbalancedBrackets .right) => true
  | .violation (.unexpectedToken none _ _) => true
  | _ => false

namespace Session
variable {grammar : Grammar} {table : Dialect} {tokens rest : List Token} {token : Token}
variable {s t : Session} {error : Error}

/-! ### One token, or the end -/

/-- The causes for which a session refuses a token. -/
inductive Refuses (grammar : Grammar) (table : Dialect) (s : Session) (token : Token) : Error → Prop where
  | unexpected : Refuses grammar table s token (s.unexpected (some token))
  | unknown (hkind : token.kind = .function) (harity : table.arity token.text = none) :
    Refuses grammar table s token (.unknownFunction token.text)
  | unopened (hkind : token.kind = .rbracket) (hlegal : grammar.accepts s.state .rbracket = true)
      (hdepth : s.depth = 0) :
    Refuses grammar table s token (.violation (.unbalancedBrackets .left))
  | mismatch {call : Call} {outer : List Call} (hkind : token.kind = .rbracket)
      (hcall : s.ownCall? = some (call, outer)) (hcount : call.arity ≠ call.separators + 1) :
    Refuses grammar table s token (.violation (.arityMismatch call.name call.arity
      (call.separators + 1) (if call.separators + 1 < call.arity then .tooFew else .tooMany)))

theorem refuses_of_step (h : s.step grammar table token = .error error) :
    Refuses grammar table s token error := by
  unfold step at h
  split at h
  · next hlegal =>
    have henter : s.enter table token = .error error := map_eq_error_iff.mp h
    unfold enter at henter
    split at henter
    · next hkind =>
      split at henter
      · next harity =>
        cases henter
        exact .unknown hkind harity
      · cases henter
    · cases henter
    · next hkind =>
      rw [hkind] at hlegal
      split at henter
      · next hdepth =>
        cases henter
        exact .unopened hkind hlegal hdepth
      · split at henter
        · next call outer hcall =>
          unfold checkArity at henter
          split at henter
          · cases henter
          · next hcount =>
            cases henter
            exact .mismatch hkind hcall hcount
        · cases henter
    · split at henter
      · cases henter
      · cases henter
        exact .unexpected
    · cases henter
  · cases h
    exact .unexpected

theorem admits_of_step {next : Session} (h : s.step .arithmetic table token = .ok next) :
    s.state.admits token.kind = true ∧ next.state = .after token.kind := by
  unfold step at h
  rw [Grammar.arithmetic_accepts] at h
  split at h
  · next hadmits =>
    obtain ⟨entered, -, rfl⟩ := map_eq_ok_iff.mp h
    exact ⟨hadmits, rfl⟩
  · cases h

theorem Refuses.not_atEnd (h : Refuses grammar table s token error) : error.atEnd = false := by
  cases h <;> rfl

theorem atEnd_of_finish (h : s.finish = .error error) : error.atEnd = true := by
  unfold finish at h
  split at h
  · cases h
    rfl
  · split at h
    · cases h
    · cases h
      rfl

/-- In what a run takes, each token may follow the one before it. -/
theorem isChain_of_run (h : s.run .arithmetic table tokens = .ok t) :
    tokens.IsChain fun token next => (State.after token.kind).admits next.kind = true := by
  induction tokens generalizing s with
  | nil => exact .nil
  | cons token rest ih =>
    obtain ⟨next, hstep, hrest⟩ := run_cons_eq_ok_iff.mp h
    refine List.isChain_cons.mpr ⟨fun following hfollowing => ?_, ih hrest⟩
    obtain ⟨later, rfl⟩ := List.head?_eq_some_iff.mp hfollowing
    obtain ⟨reached, hnext, -⟩ := run_cons_eq_ok_iff.mp hrest
    rw [← (admits_of_step hstep).2]
    exact (admits_of_step hnext).1

/-! ### The position of a refusal -/

/-- A run that fails has taken some of the tokens and is refused the next one. -/
theorem exists_refused (h : s.run grammar table tokens = .error error) :
    ∃ j token t, s.run grammar table (tokens.take j) = .ok t ∧ tokens[j]? = some token ∧
      t.step grammar table token = .error error := by
  induction tokens generalizing s with
  | nil => cases h
  | cons token rest ih =>
    unfold run at h
    cases hstep : s.step grammar table token with
    | error e =>
      rw [hstep] at h
      cases h
      exact ⟨0, token, s, rfl, rfl, hstep⟩
    | ok next =>
      rw [hstep] at h
      obtain ⟨j, refused, t, hrun, hat, hrefused⟩ := ih h
      refine ⟨j + 1, refused, t, ?_, hat, hrefused⟩
      rw [List.take_succ_cons]
      unfold run
      rw [hstep]
      exact hrun

/-- The refusal of a token is that of the whole run. -/
theorem run_of_refused {j : Nat} (hrun : s.run grammar table (tokens.take j) = .ok t)
    (hat : tokens[j]? = some token) (hrefused : t.step grammar table token = .error error) :
    s.run grammar table tokens = .error error := by
  rw [eq_take_append_cons hat, run_append, hrun]
  show (t.step grammar table token).bind _ = _
  rw [hrefused]
  rfl

/-- A run that takes a list takes the beginnings of it. -/
theorem exists_run_of_prefix {all : List Token} (hstart : tokens <+: all)
    (h : s.run grammar table all = .ok t) : ∃ next, s.run grammar table tokens = .ok next := by
  obtain ⟨rest, rfl⟩ := hstart
  obtain ⟨next, hrun, -⟩ := run_append_eq_ok_iff.mp h
  exact ⟨next, hrun⟩

theorem not_atEnd_of_run (h : s.run grammar table tokens = .error error) : error.atEnd = false := by
  obtain ⟨j, token, t, -, -, hrefused⟩ := exists_refused h
  exact (refuses_of_step hrefused).not_atEnd

/-- An error that is not that of an end was met at a token. -/
theorem run_of_not_atEnd (h : (s.run grammar table tokens).bind finish = .error error)
    (herror : error.atEnd = false) : s.run grammar table tokens = .error error := by
  cases hrun : s.run grammar table tokens with
  | error e =>
    rw [hrun] at h
    exact congrArg Except.error (Except.error.inj h)
  | ok last =>
    rw [hrun] at h
    rw [atEnd_of_finish h] at herror
    cases herror

/-- The error of an end was met behind all the tokens. -/
theorem exists_run_of_atEnd (h : (s.run grammar table tokens).bind finish = .error error)
    (herror : error.atEnd = true) :
    ∃ last, s.run grammar table tokens = .ok last ∧ last.finish = .error error := by
  cases hrun : s.run grammar table tokens with
  | error e =>
    rw [hrun] at h
    cases h
    rw [not_atEnd_of_run hrun] at herror
    cases herror
  | ok last =>
    rw [hrun] at h
    exact ⟨last, rfl, h⟩

/-- An unexpected token is the one that is refused, named with where the session stands. -/
theorem step_unexpected {token? : Option Token} {state : State} {position : Nat}
    (h : s.step grammar table token = .error (.violation (.unexpectedToken token? state position))) :
    token? = some token ∧ state = s.state ∧ position = s.position := by
  generalize herror : Error.violation (.unexpectedToken token? state position) = error at h
  cases refuses_of_step h with
  | unexpected =>
    cases herror
    exact ⟨rfl, rfl, rfl⟩
  | unknown => cases herror
  | unopened => cases herror
  | mismatch => cases herror

theorem finish_unexpected {token? : Option Token} {state : State} {position : Nat}
    (h : s.finish = .error (.violation (.unexpectedToken token? state position))) :
    s.depth = 0 ∧ state = s.state ∧ position = s.position := by
  unfold finish at h
  split at h
  · cases h
  · next hclosed =>
    split at h
    · cases h
    · cases h
      exact ⟨Nat.eq_zero_of_not_pos hclosed, rfl, rfl⟩

end Session

namespace Scanner

/-- The result of a scan over a table, whatever the scanner has scanned before. -/
def scanResult (table : Dialect) (session : Session) (tokens : List Token) : Except Error Unit :=
  ((Scanner.mk .arithmetic table session).scan tokens).2.result

section
variable (table : Dialect) (session : Session)

/-- No token is refused: the list is accepted, or it only ends too early. -/
def Passes (tokens : List Token) : Prop :=
  scanResult table session tokens = .ok () ∨
    ∃ error, scanResult table session tokens = .error error ∧ error.atEnd = true

/-- The token at position `k` is the first that matters: shorter lists pass, and every list that
starts like this one up to the token fails with the same error. -/
structure DecidedAt (tokens : List Token) (error : Error) (k : Nat) : Prop where
  lt : k < tokens.length
  before : ∀ i ≤ k, Passes table session (tokens.take i)
  after : ∀ others, tokens.take (k + 1) <+: others → scanResult table session others = .error error

end

variable {table : Dialect} {session : Session} {tokens : List Token} {token : Token} {error : Error}

theorem scanResult_eq (table : Dialect) (session : Session) (tokens : List Token) :
    scanResult table session tokens =
      (Session.initial.run .arithmetic table tokens).bind Session.finish := rfl

theorem scanResult_eq_nesting (table : Dialect) (session : Session) (tokens : List Token) :
    scanResult table session tokens = Nesting.verdict table tokens :=
  Nesting.run_finish_session Nesting.initial_announced tokens

theorem passes_iff :
    Passes table session tokens ↔ ∃ s, Session.initial.run .arithmetic table tokens = .ok s := by
  unfold Passes
  rw [scanResult_eq]
  constructor
  · rintro (hok | ⟨error, hresult, hend⟩)
    · obtain ⟨s, hrun, -⟩ := Session.exists_run_of_accepted hok
      exact ⟨s, hrun⟩
    · obtain ⟨s, hrun, -⟩ := Session.exists_run_of_atEnd hresult hend
      exact ⟨s, hrun⟩
  · rintro ⟨s, hrun⟩
    rw [hrun]
    cases hfinish : s.finish with
    | ok u => exact .inl hfinish
    | error e => exact .inr ⟨e, hfinish, Session.atEnd_of_finish hfinish⟩

theorem scanResult_of_refused {s : Session} {k : Nat}
    (hrun : Session.initial.run .arithmetic table (tokens.take k) = .ok s)
    (hat : tokens[k]? = some token) (hrefused : s.step .arithmetic table token = .error error) :
    scanResult table session tokens = .error error := by
  rw [scanResult_eq, Session.run_of_refused hrun hat hrefused]
  rfl

theorem decidedAt_of_refused {s : Session} {k : Nat}
    (hrun : Session.initial.run .arithmetic table (tokens.take k) = .ok s)
    (hat : tokens[k]? = some token) (hrefused : s.step .arithmetic table token = .error error) :
    DecidedAt table session tokens error k := by
  obtain ⟨hk, -⟩ := List.getElem?_eq_some_iff.mp hat
  refine ⟨hk, fun i hi => passes_iff.mpr ?_, fun others hstart => ?_⟩
  · exact Session.exists_run_of_prefix (List.take_prefix_take_left hi) hrun
  obtain ⟨rest, rfl⟩ := hstart
  have htake : (tokens.take (k + 1) ++ rest).take k = tokens.take k := by
    rw [List.take_append_of_le_length (by rw [List.length_take]; omega), List.take_take,
      Nat.min_eq_left (Nat.le_succ k)]
  have hother : (tokens.take (k + 1) ++ rest)[k]? = some token := by
    rw [List.getElem?_append_left (by rw [List.length_take]; omega),
      List.getElem?_take_of_lt (Nat.lt_succ_self k), hat]
  rw [← htake] at hrun
  exact scanResult_of_refused hrun hother hrefused

/-- The prefixes that pass are those that end before the token that matters. -/
theorem DecidedAt.passes_take_iff {k i : Nat} (h : DecidedAt table session tokens error k)
    (herror : error.atEnd = false) : Passes table session (tokens.take i) ↔ i ≤ k := by
  refine ⟨fun hpasses => ?_, h.before i⟩
  by_contra hlt
  have hfails := h.after (tokens.take i) (List.take_prefix_take_left (Nat.lt_of_not_le hlt))
  rcases hpasses with hok | ⟨e, hresult, hend⟩
  · rw [hok] at hfails
    cases hfails
  · rw [hresult] at hfails
    cases hfails
    rw [hend] at herror
    cases herror

theorem DecidedAt.le {k other : Nat} (h : DecidedAt table session tokens error k)
    (hother : DecidedAt table session tokens error other) (herror : error.atEnd = false) :
    other ≤ k :=
  (h.passes_take_iff herror).mp (hother.before other (Nat.le_refl other))

theorem exists_decidedAt (h : scanResult table session tokens = .error error) (herror : error.atEnd = false) :
    ∃ k, DecidedAt table session tokens error k := by
  obtain ⟨k, token, s, hrun, hat, hrefused⟩ := Session.exists_refused (Session.run_of_not_atEnd h herror)
  exact ⟨k, decidedAt_of_refused hrun hat hrefused⟩

theorem Passes.left {rest : List Token} (h : Passes table session (tokens ++ rest)) :
    Passes table session tokens := by
  obtain ⟨s, hrun⟩ := passes_iff.mp h
  exact passes_iff.mpr (Session.exists_run_of_prefix (List.prefix_append tokens rest) hrun)

/-- **A scan fails at the first violation.** An error at a token is decided by the tokens up to that
one, at a single position, which an unexpected token's error names along with the token and the state
before it. An error at the end leaves every prefix without a violation, and names the end. -/
theorem fails_at_first_violation (table : Dialect) (session : Session) (tokens : List Token)
    (error : Error) (h : scanResult table session tokens = .error error) :
    (error.atEnd = false →
      (∃! k, DecidedAt table session tokens error k) ∧
      ∀ token state position, error = .violation (.unexpectedToken (some token) state position) →
        DecidedAt table session tokens error position ∧ tokens[position]? = some token ∧
          state = State.behind (tokens.take position)) ∧
    (error.atEnd = true →
      (∀ i, Passes table session (tokens.take i)) ∧
      ∀ state position, error = .violation (.unexpectedToken none state position) →
        position = tokens.length ∧ state = State.behind tokens) := by
  rw [scanResult_eq] at h
  refine ⟨fun herror => ?_, fun herror => ?_⟩
  · obtain ⟨k, token, s, hrun, hat, hrefused⟩ :=
      Session.exists_refused (Session.run_of_not_atEnd h herror)
    have hdecided : DecidedAt table session tokens error k :=
      decidedAt_of_refused hrun hat hrefused
    refine ⟨⟨k, hdecided, fun other hother => ?_⟩, fun token' state position hcause => ?_⟩
    · exact Nat.le_antisymm (hdecided.le hother herror) (hother.le hdecided herror)
    · have hsound := Session.sound_of_run hrun
      rw [hcause] at hrefused
      obtain ⟨htoken, hstate, hposition⟩ := Session.step_unexpected hrefused
      have hk : position = k := by
        rw [hposition, hsound.position, List.length_take]
        exact Nat.min_eq_left (Nat.le_of_lt hdecided.lt)
      rw [hk]
      exact ⟨hdecided, hat.trans htoken.symm, hstate.trans hsound.state⟩
  · obtain ⟨last, hrun, hfinish⟩ := Session.exists_run_of_atEnd h herror
    have hsound := Session.sound_of_run hrun
    refine ⟨fun i => ?_, fun state position hcause => ?_⟩
    · exact passes_iff.mpr (Session.exists_run_of_prefix (List.take_prefix i tokens) hrun)
    · rw [hcause] at hfinish
      obtain ⟨-, hstate, hposition⟩ := Session.finish_unexpected hfinish
      exact ⟨hposition.trans hsound.position, hstate.trans hsound.state⟩

/-- In `x y sin(1,2)` the call is wrong as well, but `y` comes first. -/
theorem fails_at_first_violation_of_two :
    scanResult .default .initial [⟨.var, "x"⟩, ⟨.var, "y"⟩, ⟨.function, "sin"⟩, ⟨.lbracket, "("⟩,
        ⟨.number, "1"⟩, ⟨.separator, ","⟩, ⟨.number, "2"⟩, ⟨.rbracket, ")"⟩] =
      .error (.violation (.unexpectedToken (some ⟨.var, "y"⟩) (.after .var) 1)) ∧
    DecidedAt .default .initial [⟨.var, "x"⟩, ⟨.var, "y"⟩, ⟨.function, "sin"⟩, ⟨.lbracket, "("⟩,
        ⟨.number, "1"⟩, ⟨.separator, ","⟩, ⟨.number, "2"⟩, ⟨.rbracket, ")"⟩]
      (.violation (.unexpectedToken (some ⟨.var, "y"⟩) (.after .var) 1)) 1 :=
  ⟨rfl, (((fails_at_first_violation .default .initial _ _ rfl).1 rfl).2 _ _ _ rfl).1⟩

end Scanner

end Formula
