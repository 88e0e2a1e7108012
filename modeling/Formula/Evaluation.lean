import Formula.Environment
import Formula.Error
import Formula.Expr.Basic

/-! What an expression is worth where names have values. The left operand comes
first, and the only failure is a name without a value. -/
namespace Formula.Expr

def evaluateWith (lookup : String → Option Float) : Expr → Except Error Float
  | .number value => .ok value
  | .var name | .const name =>
    match lookup name with
    | some value => .ok value
    | none => .error (.unboundName name)
  | .unary op operand => do
    let a ← operand.evaluateWith lookup
    return op.apply a
  | .binary op left right => do
    let a ← left.evaluateWith lookup
    let b ← right.evaluateWith lookup
    return op.apply a b

def evaluate (env : Environment) (expr : Expr) : Except Error Float := expr.evaluateWith env.get?

end Formula.Expr
