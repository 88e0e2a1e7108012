import Formula.Dialect
import Formula.Grammar
import Formula.Report

/-! One pass over a list of tokens.

A session has the state of the grammar, the number of brackets that are open, and
the calls that are open, innermost first. A call remembers how many brackets were
open before its own, so the bracket that closes it and the separators between its
arguments are told from those of the groups inside it by counting alone.

`step` takes one token, `run` a list of them up to the first that is refused, and
`finish` says whether the input may end. `run_append` splits a run anywhere. -/
namespace Formula

/-- A function call that is not closed yet. -/
structure Call where
  name : String
  arity : Nat
  separators : Nat
  /-- How many brackets were open before the bracket of the call. -/
  outerDepth : Nat
deriving DecidableEq, Repr

structure Session where
  state : State
  /-- The number of tokens taken. -/
  position : Nat
  depth : Nat
  calls : List Call
deriving DecidableEq, Repr

namespace Session

def initial : Session := ⟨.start, 0, 0, []⟩

/-- The refusal of a token, or of the end of the input, in a state. -/
def unexpected (token? : Option Token) (s : Session) : Error :=
  .violation (.unexpectedToken token? s.state s.position)

/-- The innermost call, if the innermost open bracket is its own. -/
def ownCall? (s : Session) : Option (Call × List Call) :=
  match s.calls with
  | call :: outer => if call.outerDepth + 1 = s.depth then some (call, outer) else none
  | [] => none

/-- What a token does to the calls and the depth once the grammar has let it pass. -/
def enter (table : Dialect) (s : Session) (token : Token) : Except Error Session :=
  match token.kind with
  | .function =>
    match table.arity token.text with
    | none => .error (.unknownFunction token.text)
    | some arity => .ok { s with calls := ⟨token.text, arity, 0, s.depth⟩ :: s.calls }
  | .lbracket => .ok { s with depth := s.depth + 1 }
  | .rbracket =>
    if s.depth = 0 then .error (.violation (.unbalancedBrackets .left))
    else
      match s.ownCall? with
      | some (call, outer) =>
        (checkArity call.name call.arity (call.separators + 1)).map fun _ =>
          { s with depth := s.depth - 1, calls := outer }
      | none => .ok { s with depth := s.depth - 1 }
  | .separator =>
    match s.ownCall? with
    | some (call, outer) =>
      .ok { s with calls := { call with separators := call.separators + 1 } :: outer }
    | none => .error (s.unexpected (some token))
  | _ => .ok s

/-- Counts a token as taken. -/
def advance (s : Session) (kind : TokenKind) : Session :=
  { s with state := .after kind, position := s.position + 1 }

variable (grammar : Grammar) (table : Dialect)

def step (s : Session) (token : Token) : Except Error Session :=
  if grammar.accepts s.state token.kind then (s.enter table token).map (·.advance token.kind)
  else .error (s.unexpected (some token))

def run (s : Session) : List Token → Except Error Session
  | [] => .ok s
  | token :: rest => (s.step grammar table token).bind (run · rest)

/-- What a refused token leaves behind. If the grammar let it pass, its state is entered already,
and a bracket that closes a call with the wrong number of arguments has closed it. -/
def abandoned (s : Session) (token : Token) : Session :=
  if grammar.accepts s.state token.kind then
    match token.kind, s.ownCall? with
    | .rbracket, some (_, outer) =>
      { s with state := .after token.kind, depth := s.depth - 1, calls := outer }
    | _, _ => { s with state := .after token.kind }
  else s

/-- The session that a run leaves behind, at the end or at the token where it got stuck. -/
def reached (s : Session) : List Token → Session
  | [] => s
  | token :: rest =>
    match s.step grammar table token with
    | .ok next => next.reached rest
    | .error _ => s.abandoned grammar token

/-- Whether the input may end here: every bracket is closed and no operand is due. -/
def finish (s : Session) : Except Error Unit :=
  if 0 < s.depth then .error (.violation (.unbalancedBrackets .right))
  else if s.state.accepting then .ok ()
  else .error (s.unexpected none)

/-- What is logged for a token: that the grammar lets it pass, and the call that it closes. -/
def events (s : Session) (token : Token) : List Event :=
  if grammar.accepts s.state token.kind then
    .transition s.state (.after token.kind) token.text ::
      match token.kind, s.ownCall? with
      | .rbracket, some (call, _) => [.closing call.name call.separators]
      | _, _ => []
  else []

def transcript (s : Session) : List Token → List Event
  | [] => []
  | token :: rest =>
    s.events grammar token ++
      match s.step grammar table token with
      | .ok next => next.transcript rest
      | .error _ => []

theorem run_append (s : Session) (a b : List Token) :
    s.run grammar table (a ++ b) = (s.run grammar table a).bind (run grammar table · b) := by
  induction a generalizing s with
  | nil => rfl
  | cons token rest ih =>
    simp only [List.cons_append, run]
    cases s.step grammar table token with
    | error e => rfl
    | ok next => exact ih next

variable {grammar table} in
theorem run_cons_eq_ok_iff {s t : Session} {token : Token} {rest : List Token} :
    s.run grammar table (token :: rest) = .ok t ↔
      ∃ next, s.step grammar table token = .ok next ∧ next.run grammar table rest = .ok t :=
  bind_eq_ok_iff

variable {grammar table} in
theorem run_append_eq_ok_iff {s t : Session} {a b : List Token} : s.run grammar table (a ++ b) = .ok t ↔
    ∃ next, s.run grammar table a = .ok next ∧ next.run grammar table b = .ok t := by
  rw [run_append]
  exact bind_eq_ok_iff

theorem reached_of_run {s t : Session} {tokens : List Token} (h : s.run grammar table tokens = .ok t) :
    s.reached grammar table tokens = t := by
  induction tokens generalizing s with
  | nil => cases h; rfl
  | cons token rest ih =>
    obtain ⟨next, hstep, hrest⟩ := run_cons_eq_ok_iff.mp h
    simp only [reached, hstep]
    exact ih hrest

theorem transcript_append (s : Session) (a b : List Token) :
    s.transcript grammar table (a ++ b) = s.transcript grammar table a ++
      match s.run grammar table a with
      | .ok next => next.transcript grammar table b
      | .error _ => [] := by
  induction a generalizing s with
  | nil => rfl
  | cons token rest ih =>
    simp only [List.cons_append, transcript, run, List.append_assoc]
    cases s.step grammar table token with
    | error e => rfl
    | ok next => simp only [ih]; rfl

end Session

end Formula
