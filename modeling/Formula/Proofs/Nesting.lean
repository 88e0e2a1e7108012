import Mathlib.Data.List.Induction
import Formula.Scanner

/-! A scan that keeps every open bracket.

A session counts the open brackets and remembers only those of calls. A `Nesting`
has one entry for each open bracket, and what it does at a bracket or a separator
it reads off the innermost entry. `session` forgets the entries of groups and
writes into each call how many brackets were open around it. One token taken by a
nesting is the same token taken by its session (`step_session`), so a whole scan
has the same outcome in both (`Scanner.scan_result_eq_verdict`). -/
namespace Formula

/-- An open bracket: it groups, or it holds the arguments of a call. -/
inductive Opening where
  | group
  | call (name : String) (arity separators : Nat)
deriving DecidableEq, Repr

structure Nesting where
  state : State
  /-- The number of tokens taken. -/
  position : Nat
  /-- The function, with its arity, whose bracket is still to come. -/
  callee : Option (String × Nat)
  /-- The open brackets, innermost first. -/
  openings : List Opening
deriving DecidableEq, Repr

namespace Nesting

def initial : Nesting := ⟨.start, 0, none, []⟩

def unexpected (token? : Option Token) (n : Nesting) : Error :=
  .violation (.unexpectedToken token? n.state n.position)

/-- A bracket belongs to the function name before it, if there is one. -/
def opening (n : Nesting) : Opening :=
  match n.callee with
  | some (name, arity) => .call name arity 0
  | none => .group

def enter (table : Dialect) (n : Nesting) (token : Token) : Except Error Nesting :=
  match token.kind with
  | .function =>
    match table.arity token.text with
    | none => .error (.unknownFunction token.text)
    | some arity => .ok { n with callee := some (token.text, arity) }
  | .lbracket => .ok { n with callee := none, openings := n.opening :: n.openings }
  | .rbracket =>
    match n.openings with
    | [] => .error (.violation (.unbalancedBrackets .left))
    | .group :: outer => .ok { n with openings := outer }
    | .call name arity separators :: outer =>
      (checkArity name arity (separators + 1)).map fun _ => { n with openings := outer }
  | .separator =>
    match n.openings with
    | .call name arity separators :: outer =>
      .ok { n with openings := .call name arity (separators + 1) :: outer }
    | _ => .error (n.unexpected (some token))
  | _ => .ok n

def advance (n : Nesting) (kind : TokenKind) : Nesting :=
  { n with state := .after kind, position := n.position + 1 }

variable (table : Dialect)

def step (n : Nesting) (token : Token) : Except Error Nesting :=
  if Grammar.arithmetic.accepts n.state token.kind then
    (n.enter table token).map (·.advance token.kind)
  else .error (n.unexpected (some token))

def run (n : Nesting) : List Token → Except Error Nesting
  | [] => .ok n
  | token :: rest => (n.step table token).bind (run · rest)

def finish (n : Nesting) : Except Error Unit :=
  match n.openings with
  | _ :: _ => .error (.violation (.unbalancedBrackets .right))
  | [] => if n.state.accepting then .ok () else .error (n.unexpected none)

/-- The outcome of a scan that keeps every open bracket. -/
def verdict (tokens : List Token) : Except Error Unit :=
  (initial.run table tokens).bind finish

theorem run_append (n : Nesting) (a b : List Token) :
    n.run table (a ++ b) = (n.run table a).bind (run table · b) := by
  induction a generalizing n with
  | nil => rfl
  | cons token rest ih =>
    simp only [List.cons_append, run]
    cases n.step table token with
    | error e => rfl
    | ok next => exact ih next

variable {table} in
theorem run_append_eq_ok_iff {n m : Nesting} {a b : List Token} :
    n.run table (a ++ b) = .ok m ↔ ∃ next, n.run table a = .ok next ∧ next.run table b = .ok m := by
  rw [run_append]
  exact bind_eq_ok_iff

theorem finish_eq_ok_iff (n : Nesting) : n.finish = .ok () ↔ n.openings = [] ∧ n.state.accepting = true := by
  unfold finish
  cases n.openings with
  | nil => simp
  | cons opening outer => simp

/-! ### The session of a nesting -/

/-- The calls among the open brackets, each with the number of brackets around it. -/
def callsOf : List Opening → List Call
  | [] => []
  | .group :: outer => callsOf outer
  | .call name arity separators :: outer =>
    ⟨name, arity, separators, outer.length⟩ :: callsOf outer

/-- The call whose bracket is still to come. -/
def pendingCall (n : Nesting) : List Call :=
  match n.callee with
  | some (name, arity) => [⟨name, arity, 0, n.openings.length⟩]
  | none => []

def session (n : Nesting) : Session :=
  ⟨n.state, n.position, n.openings.length, n.pendingCall ++ callsOf n.openings⟩

/-- A bracket is due exactly after a function name. -/
def Announced (n : Nesting) : Prop := n.callee.isSome ↔ n.state = .after .function

theorem outerDepth_lt {openings : List Opening} {call : Call} (h : call ∈ callsOf openings) :
    call.outerDepth < openings.length := by
  induction openings with
  | nil => cases h
  | cons opening outer ih =>
    cases opening with
    | group => exact Nat.lt_succ_of_lt (ih h)
    | call name arity separators =>
      rcases List.mem_cons.mp h with rfl | h
      · exact Nat.lt_succ_self _
      · exact Nat.lt_succ_of_lt (ih h)

theorem Announced.unnamed {n : Nesting} (h : n.Announced) (hstate : n.state ≠ .after .function) : n.callee = none :=
  Option.not_isSome_iff_eq_none.mp fun hsome => hstate (h.mp hsome)

theorem callee_eq_none {n : Nesting} (h : n.Announced) {kind : TokenKind}
    (hadmits : n.state.admits kind = true) (hkind : kind ≠ .lbracket) : n.callee = none := by
  refine h.unnamed fun hstate => hkind ?_
  rw [hstate] at hadmits
  simpa [State.admits] using hadmits

theorem ownCall?_of_nil {s : Session} (h : s.calls = []) : s.ownCall? = none := by
  unfold Session.ownCall?
  rw [h]

theorem ownCall?_of_cons {s : Session} {call : Call} {outer : List Call} (h : s.calls = call :: outer) :
    s.ownCall? = if call.outerDepth + 1 = s.depth then some (call, outer) else none := by
  unfold Session.ownCall?
  rw [h]

/-- With no bracket due, the session finds a call of its own exactly where the
innermost open bracket is that of a call. -/
theorem ownCall?_session {n : Nesting} (h : n.callee = none) :
    n.session.ownCall? =
      match n.openings with
      | .call name arity separators :: outer =>
        some (⟨name, arity, separators, outer.length⟩, callsOf outer)
      | _ => none := by
  have hcalls : n.session.calls = callsOf n.openings := by
    simp [session, pendingCall, h]
  cases ho : n.openings with
  | nil =>
    rw [ho] at hcalls
    exact ownCall?_of_nil hcalls
  | cons opening outer =>
    have hdepth : n.session.depth = outer.length + 1 := by
      show n.openings.length = outer.length + 1
      rw [ho, List.length_cons]
    rw [ho] at hcalls
    cases opening with
    | call name arity separators => rw [ownCall?_of_cons hcalls, if_pos hdepth.symm]
    | group =>
      cases hc : callsOf outer with
      | nil => exact ownCall?_of_nil (hcalls.trans hc)
      | cons call rest =>
        -- A call further out has at least the group's own bracket between it and the token.
        have hlt : call.outerDepth < outer.length := outerDepth_lt (hc ▸ List.mem_cons_self)
        rw [ownCall?_of_cons (hcalls.trans hc), if_neg (by omega)]

theorem enter_session {n : Nesting} (h : n.Announced) {token : Token}
    (hadmits : n.state.admits token.kind = true) :
    n.session.enter table token = (n.enter table token).map session := by
  have hnone : token.kind ≠ .lbracket → n.callee = none := callee_eq_none h hadmits
  cases hk : token.kind with
  | function =>
    simp only [Session.enter, enter, hk]
    cases table.arity token.text with
    | none => rfl
    | some arity => simp [Except.map, session, pendingCall, hnone (by simp [hk])]
  | lbracket =>
    simp only [Session.enter, enter, hk, Except.map]
    cases hc : n.callee with
    | none => simp [session, pendingCall, opening, callsOf, hc]
    | some callee => simp [session, pendingCall, opening, callsOf, hc]
  | rbracket =>
    have hc := hnone (by simp [hk])
    simp only [Session.enter, enter, hk, ownCall?_session hc]
    cases ho : n.openings with
    | nil => simp [session, ho, Except.map]
    | cons opening outer =>
      cases opening with
      | group => simp [session, pendingCall, callsOf, hc, ho, Except.map]
      | call name arity separators =>
        cases hcheck : checkArity name arity (separators + 1) with
        | error e => simp [session, hcheck, ho, Except.map]
        | ok u => simp [session, pendingCall, hcheck, hc, ho, Except.map]
  | separator =>
    have hc := hnone (by simp [hk])
    simp only [Session.enter, enter, hk, ownCall?_session hc]
    cases ho : n.openings with
    | nil => rfl
    | cons opening outer =>
      cases opening with
      | group => rfl
      | call name arity separators => simp [session, pendingCall, callsOf, hc, ho, Except.map]
  | var => simp only [Session.enter, enter, hk, Except.map]
  | const => simp only [Session.enter, enter, hk, Except.map]
  | number => simp only [Session.enter, enter, hk, Except.map]
  | binary => simp only [Session.enter, enter, hk, Except.map]
  | unary => simp only [Session.enter, enter, hk, Except.map]

theorem step_session {n : Nesting} (h : n.Announced) (token : Token) :
    n.session.step .arithmetic table token = (n.step table token).map session := by
  have hstate : n.session.state = n.state := rfl
  unfold Session.step step
  rw [hstate]
  split
  · next haccepts =>
    rw [Grammar.arithmetic_accepts] at haccepts
    rw [enter_session table h haccepts]
    cases n.enter table token with
    | error e => rfl
    | ok next => rfl
  · rfl

/-! ### Whole runs -/

/-- What a token does to a nesting that takes it. -/
inductive Taken (token : Token) (n : Nesting) : Nesting → Prop where
  | name {arity : Nat} (hkind : token.kind = .function) (harity : table.arity token.text = some arity) :
    Taken token n ⟨.after token.kind, n.position + 1, some (token.text, arity), n.openings⟩
  | opens (hkind : token.kind = .lbracket) :
    Taken token n ⟨.after token.kind, n.position + 1, none, n.opening :: n.openings⟩
  | closesGroup {outer : List Opening} (hkind : token.kind = .rbracket)
      (hopen : n.openings = .group :: outer) (hcallee : n.callee = none) :
    Taken token n ⟨.after token.kind, n.position + 1, none, outer⟩
  | closesCall {name : String} {separators : Nat} {outer : List Opening} (hkind : token.kind = .rbracket)
      (hopen : n.openings = .call name (separators + 1) separators :: outer) (hcallee : n.callee = none) :
    Taken token n ⟨.after token.kind, n.position + 1, none, outer⟩
  | separates {name : String} {arity separators : Nat} {outer : List Opening}
      (hkind : token.kind = .separator) (hopen : n.openings = .call name arity separators :: outer)
      (hcallee : n.callee = none) :
    Taken token n
      ⟨.after token.kind, n.position + 1, none, .call name arity (separators + 1) :: outer⟩
  | plain (hkind : token.kind.isLeaf ∨ token.kind = .binary ∨ token.kind = .unary)
      (hcallee : n.callee = none) :
    Taken token n ⟨.after token.kind, n.position + 1, none, n.openings⟩

variable {table}

theorem enter_of_taken {token : Token} {n next : Nesting} (h : Taken table token n next) :
    (n.enter table token).map (·.advance token.kind) = .ok next := by
  cases h with
  | name hkind harity => simp [enter, advance, hkind, harity, Except.map]
  | opens hkind => simp [enter, advance, hkind, Except.map]
  | closesGroup hkind hopen hcallee => simp [enter, advance, hkind, hopen, hcallee, Except.map]
  | closesCall hkind hopen hcallee =>
    simp [enter, advance, hkind, hopen, hcallee, checkArity, Except.map]
  | separates hkind hopen hcallee => simp [enter, advance, hkind, hopen, hcallee, Except.map]
  | plain hkind hcallee =>
    cases hk : token.kind <;> simp [hk, TokenKind.isLeaf] at hkind <;>
      simp [enter, advance, hk, ← hcallee, Except.map]

theorem taken_of_enter {token : Token} {n next : Nesting} (h : n.Announced)
    (hadmits : n.state.admits token.kind = true)
    (henter : (n.enter table token).map (·.advance token.kind) = .ok next) :
    Taken table token n next := by
  have hnone : token.kind ≠ .lbracket → n.callee = none := callee_eq_none h hadmits
  unfold enter at henter
  split at henter
  · next hk =>
    split at henter
    · cases henter
    · next arity harity =>
      cases henter
      exact .name hk harity
  · next hk =>
    cases henter
    exact .opens hk
  · next hk =>
    have hc := hnone (by simp [hk])
    split at henter
    · cases henter
    · next outer ho =>
      cases henter
      simpa only [advance, hc] using (Taken.closesGroup hk ho hc : Taken table token n _)
    · next name arity separators outer ho =>
      unfold checkArity at henter
      split at henter
      · next heq =>
        cases henter
        simpa only [advance, hc] using (Taken.closesCall hk (heq ▸ ho) hc : Taken table token n _)
      · cases henter
  · next hk =>
    have hc := hnone (by simp [hk])
    split at henter
    · next name arity separators outer ho =>
      cases henter
      simpa only [advance, hc] using (Taken.separates hk ho hc : Taken table token n _)
    · cases henter
  · next hf hl hr hs =>
    have hc := hnone hl
    cases henter
    have hkind : token.kind.isLeaf ∨ token.kind = .binary ∨ token.kind = .unary := by
      cases hk : token.kind <;> simp_all [TokenKind.isLeaf]
    simpa only [advance, hc] using (Taken.plain hkind hc : Taken table token n _)

/-- A token is taken if the grammar lets it pass and the open brackets allow it. -/
theorem step_eq_ok_iff {token : Token} {n next : Nesting} (h : n.Announced) :
    n.step table token = .ok next ↔ n.state.admits token.kind = true ∧ Taken table token n next := by
  unfold step
  rw [Grammar.arithmetic_accepts]
  split
  · next hadmits =>
    exact ⟨fun henter => ⟨hadmits, taken_of_enter h hadmits henter⟩, fun ht => enter_of_taken ht.2⟩
  · next hrefused =>
    exact ⟨fun herror => (nomatch herror), fun ht => absurd ht.1 hrefused⟩

theorem step_refused {token : Token} {n : Nesting} (h : n.state.admits token.kind = false) :
    n.step table token = .error (n.unexpected (some token)) := by
  rw [step, Grammar.arithmetic_accepts, h, if_neg Bool.false_ne_true]

theorem Taken.announced {token : Token} {n next : Nesting} (h : Taken table token n next) :
    next.Announced := by
  cases h with
  | name hkind harity => simp [Announced, hkind]
  | opens hkind => simp [Announced, hkind]
  | closesGroup hkind hopen hcallee => simp [Announced, hkind]
  | closesCall hkind hopen hcallee => simp [Announced, hkind]
  | separates hkind hopen hcallee => simp [Announced, hkind]
  | plain hkind hcallee =>
    cases hk : token.kind <;> simp [hk, TokenKind.isLeaf] at hkind <;> simp [Announced]

theorem run_of_taken {token : Token} {n next : Nesting} (h : n.Announced) (hadmits : n.state.admits token.kind = true)
    (htaken : Taken table token n next) (rest : List Token) : n.run table (token :: rest) = next.run table rest := by
  rw [run, (step_eq_ok_iff h).mpr ⟨hadmits, htaken⟩]
  rfl

theorem exists_taken_of_run {token : Token} {rest : List Token} {n m : Nesting} (h : n.Announced)
    (hrun : n.run table (token :: rest) = .ok m) :
    ∃ next, n.state.admits token.kind = true ∧ Taken table token n next ∧ next.run table rest = .ok m := by
  obtain ⟨next, hstep, hrest⟩ := bind_eq_ok_iff.mp hrun
  obtain ⟨hadmits, htaken⟩ := (step_eq_ok_iff h).mp hstep
  exact ⟨next, hadmits, htaken, hrest⟩

theorem initial_announced : initial.Announced := by
  simp [Announced, initial]

theorem run_session {n : Nesting} (h : n.Announced) (tokens : List Token) :
    n.session.run .arithmetic table tokens = (n.run table tokens).map session := by
  induction tokens generalizing n with
  | nil => rfl
  | cons token rest ih =>
    simp only [Session.run, run, step_session table h]
    cases hstep : n.step table token with
    | error e => rfl
    | ok next => exact ih ((step_eq_ok_iff h).mp hstep).2.announced

theorem finish_session (n : Nesting) : n.session.finish = n.finish := by
  unfold Session.finish finish session
  cases n.openings with
  | nil => rfl
  | cons opening outer => rfl

/-- What holds at the start and is kept by each token taken holds wherever a run gets to. -/
theorem run_induction {P : List Token → Nesting → Prop} (hinitial : P [] initial)
    (hstep : ∀ consumed n token next, n.Announced → P consumed n →
      n.state.admits token.kind = true → Taken table token n next → P (consumed ++ [token]) next)
    {tokens : List Token} {n : Nesting} (hrun : initial.run table tokens = .ok n) :
    n.Announced ∧ P tokens n := by
  induction tokens using List.reverseRecOn generalizing n with
  | nil =>
    cases hrun
    exact ⟨initial_announced, hinitial⟩
  | append_singleton consumed token ih =>
    obtain ⟨m, hconsumed, hlast⟩ := run_append_eq_ok_iff.mp hrun
    obtain ⟨hm, hP⟩ := ih hconsumed
    obtain ⟨next, hadmits, htaken, hdone⟩ := exists_taken_of_run hm hlast
    cases hdone
    exact ⟨htaken.announced, hstep consumed m token _ hm hP hadmits htaken⟩

/-- Every session that a scan reaches is that of a nesting. -/
theorem exists_nesting {tokens : List Token} {s : Session}
    (hrun : Session.initial.run .arithmetic table tokens = .ok s) :
    ∃ n, initial.run table tokens = .ok n ∧ n.session = s := by
  have hsession : Session.initial.run .arithmetic table tokens =
      (initial.run table tokens).map session := run_session initial_announced tokens
  exact map_eq_ok_iff.mp (hsession.symm.trans hrun)

/-- From any point on, the rest of the input ends a session as it ends its nesting. -/
theorem run_finish_session {n : Nesting} (h : n.Announced) (tokens : List Token) :
    (n.session.run .arithmetic table tokens).bind Session.finish =
      (n.run table tokens).bind finish := by
  rw [run_session h]
  cases n.run table tokens with
  | error e => rfl
  | ok reached => exact finish_session reached

end Nesting

/-- **A scan ends as one that keeps every open bracket does**: whatever the scanner has scanned
before, the list is accepted by both, or refused by both for the same cause. -/
theorem Scanner.scan_result_eq_verdict (table : Dialect) (session : Session) (tokens : List Token) :
    ((Scanner.mk .arithmetic table session).scan tokens).2.result = Nesting.verdict table tokens :=
  Nesting.run_finish_session Nesting.initial_announced tokens

end Formula
