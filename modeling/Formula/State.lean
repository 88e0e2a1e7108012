import Formula.Token

/-! Where a scan stands: before the first token, or after a token of some kind. -/
namespace Formula

inductive State where
  | start
  | after (kind : TokenKind)
deriving DecidableEq, Repr

namespace State

/-- Every state, in the order in which states are listed: a function name comes last. -/
def all : List State :=
  .start :: [.var, .const, .number, .binary, .unary, .lbracket, .rbracket, .separator,
    .function].map .after

theorem mem_all (state : State) : state ∈ all := by
  cases state with
  | start => decide
  | after kind => cases kind <;> decide

def text : State → String
  | .start => "start of expression"
  | .after kind => kind.text

instance : ToString State := ⟨text⟩

/-- An expression may end after a value or after a bracket that closes one. -/
def accepting : State → Bool
  | .after .var | .after .const | .after .number | .after .rbracket => true
  | _ => false

end State

end Formula
