/-! Tokens: a kind, which is all the grammar looks at, and a text, which names a
function or is shown to the reader. The text need not fit the kind. -/
namespace Formula

inductive TokenKind where
  | var
  | const
  | number
  | binary
  | unary
  | function
  | lbracket
  | rbracket
  | separator
deriving DecidableEq, Repr

namespace TokenKind

/-- Every kind, in the order in which kinds are listed. -/
def all : List TokenKind :=
  [.var, .const, .number, .binary, .unary, .function, .lbracket, .rbracket, .separator]

theorem mem_all (kind : TokenKind) : kind ∈ all := by
  cases kind <;> decide

def text : TokenKind → String
  | .var => "variable"
  | .const => "constant"
  | .number => "number"
  | .binary => "binary operator"
  | .unary => "unary operator"
  | .function => "function name"
  | .lbracket => "left bracket"
  | .rbracket => "right bracket"
  | .separator => "argument separator"

instance : ToString TokenKind := ⟨text⟩

/-- Kinds that stand for a value by themselves. -/
def isLeaf : TokenKind → Bool
  | .var | .const | .number => true
  | _ => false

/-- Kinds after which a value is still to come, so that a minus there is a sign. -/
def expectsOperand : TokenKind → Bool
  | .lbracket | .separator | .binary | .unary => true
  | _ => false

end TokenKind

structure Token where
  kind : TokenKind
  text : String
deriving DecidableEq, Repr

namespace Token

def var (name : String) : Token := ⟨.var, name⟩
def const (name : String) : Token := ⟨.const, name⟩
def number (text : String) : Token := ⟨.number, text⟩
def binary (symbol : String) : Token := ⟨.binary, symbol⟩
def unary (symbol : String) : Token := ⟨.unary, symbol⟩
def function (name : String) : Token := ⟨.function, name⟩
def lbracket : Token := ⟨.lbracket, "("⟩
def rbracket : Token := ⟨.rbracket, ")"⟩
def separator : Token := ⟨.separator, ","⟩

/-- The text in quotes, then the kind in brackets. -/
def display (token : Token) : String := s!"'{token.text}' ({token.kind})"

instance : ToString Token := ⟨display⟩

end Token

end Formula
