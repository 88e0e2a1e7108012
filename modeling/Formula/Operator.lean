/-! The operators of expression trees and what they compute.

Arithmetic is that of double-precision floats throughout: an argument outside a
function's domain gives a NaN or an infinity, and no operator fails. -/
namespace Formula

inductive BinaryOp where
  | add
  | subtract
  | multiply
  | divide
  | power
deriving DecidableEq, Repr

namespace BinaryOp

def all : List BinaryOp := [.add, .subtract, .multiply, .divide, .power]

def symbol : BinaryOp → String
  | .add => "+"
  | .subtract => "-"
  | .multiply => "*"
  | .divide => "/"
  | .power => "^"

def ofSymbol? (symbol : String) : Option BinaryOp := all.find? (·.symbol == symbol)

def apply : BinaryOp → Float → Float → Float
  | .add, a, b => a + b
  | .subtract, a, b => a - b
  | .multiply, a, b => a * b
  | .divide, a, b => a / b
  | .power, a, b => a.pow b

theorem ofSymbol?_symbol (op : BinaryOp) : ofSymbol? op.symbol = some op := by
  cases op <;> decide

end BinaryOp

inductive UnaryOp where
  | negate
  | sin
  | cos
  | tan
  | cot
  | sqrt
  | exp
  | ln
deriving DecidableEq, Repr

namespace UnaryOp

/-- The sign, or the name of the function. -/
def name : UnaryOp → String
  | .negate => "-"
  | .sin => "sin"
  | .cos => "cos"
  | .tan => "tg"
  | .cot => "ctg"
  | .sqrt => "sqrt"
  | .exp => "exp"
  | .ln => "ln"

/-- `cot` is the arc tangent. -/
def apply : UnaryOp → Float → Float
  | .negate, a => -a
  | .sin, a => a.sin
  | .cos, a => a.cos
  | .tan, a => a.tan
  | .cot, a => a.atan
  | .sqrt, a => a.sqrt
  | .exp, a => a.exp
  | .ln, a => a.log

end UnaryOp

end Formula
