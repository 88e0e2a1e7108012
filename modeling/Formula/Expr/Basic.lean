import Formula.Operator

/-! Expression trees. -/
namespace Formula

inductive Expr where
  | number (value : Float)
  | var (name : String)
  | const (name : String)
  | unary (op : UnaryOp) (operand : Expr)
  | binary (op : BinaryOp) (left right : Expr)

namespace Expr

/-- The number of nodes on the longest path from the root. -/
def depth : Expr → Nat
  | .number _ | .var _ | .const _ => 1
  | .unary _ operand => 1 + operand.depth
  | .binary _ left right => 1 + max left.depth right.depth

/-- Adds the names of an expression to those seen so far, each once and in the order in which
they occur from left to right. -/
def collectNames (seen : List String) : Expr → List String
  | .number _ => seen
  | .var name | .const name => if name ∈ seen then seen else seen ++ [name]
  | .unary _ operand => operand.collectNames seen
  | .binary _ left right => right.collectNames (left.collectNames seen)

def names (expr : Expr) : List String := expr.collectNames []

/-- Same shape, operators and names, and numbers that are equal as floats: a NaN differs from
itself, and the two zeros are equal. A variable is no constant. -/
def beq : Expr → Expr → Bool
  | .number a, .number b => a == b
  | .var a, .var b => a == b
  | .const a, .const b => a == b
  | .unary op a, .unary op' b => op == op' && a.beq b
  | .binary op a b, .binary op' c d => op == op' && a.beq c && b.beq d
  | _, _ => false

instance : BEq Expr := ⟨beq⟩

end Expr

end Formula
