import Formula.Predicate
import Formula.State

/-! Which token may follow which.

The grammar of expressions is

    Expression ::= [Sign] Operand { BinaryOperator [Sign] Operand }
    Operand    ::= Variable | Constant | Number | '(' Expression ')'
                 | FunctionName '(' Expression { ',' Expression } ')'

and its successor relation needs four sets of kinds: what starts an operand or a
sign, what follows an operand, what starts an operand, and the bracket after a
function name. Each set is one predicate of a store, and states with the same
successors share its id. -/
namespace Formula

structure Grammar where
  predicates : PredicateStore
  /-- The predicate on the tokens that may follow a state. -/
  edge : State → PredicateId

namespace Grammar

/-- One terminal for each kind, in the order of `TokenKind.all`. -/
def terminals : PredicateStore :=
  TokenKind.all.foldl (fun store kind => (store.terminal kind).1) .empty

def terminalIds (kinds : List TokenKind) : List PredicateId :=
  kinds.map fun kind => ⟨TokenKind.all.idxOf kind⟩

def arithmetic : Grammar :=
  let (store, signedOperand) := terminals.anyOf <|
    terminalIds [.var, .const, .number, .function, .lbracket, .unary]
  let (store, afterOperand) := store.anyOf <| terminalIds [.binary, .rbracket, .separator]
  let (store, operand) := store.anyOf <|
    terminalIds [.var, .number, .const, .function, .lbracket]
  let (store, call) := store.anyOf <| terminalIds [.lbracket]
  { predicates := store
    edge := fun
      | .start | .after .binary | .after .lbracket | .after .separator => signedOperand
      | .after .var | .after .const | .after .number | .after .rbracket => afterOperand
      | .after .unary => operand
      | .after .function => call }

variable (grammar : Grammar)

def accepts (state : State) (kind : TokenKind) : Bool :=
  grammar.predicates.accepts (grammar.edge state) kind

/-- The kinds that may follow a state, in the order of `TokenKind.all`. -/
def successors (state : State) : List TokenKind :=
  grammar.predicates.kinds (grammar.edge state)

end Grammar

/-- The successor relation of `Grammar.arithmetic` as a table. -/
def State.admits : State → TokenKind → Bool
  | .start, kind | .after .binary, kind | .after .lbracket, kind | .after .separator, kind =>
    kind.isLeaf || kind == .function || kind == .lbracket || kind == .unary
  | .after .var, kind | .after .const, kind | .after .number, kind | .after .rbracket, kind =>
    kind == .binary || kind == .rbracket || kind == .separator
  | .after .unary, kind => kind.isLeaf || kind == .function || kind == .lbracket
  | .after .function, kind => kind == .lbracket

namespace Grammar

theorem arithmetic_accepts (state : State) (kind : TokenKind) :
    arithmetic.accepts state kind = state.admits kind := by
  cases state with
  | start => cases kind <;> decide
  | after last => cases last <;> cases kind <;> decide

end Grammar

end Formula
