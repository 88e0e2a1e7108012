import Formula.Decimal.Shortest
import Formula.Expr.Basic

/-! The text of an expression, with every bracket written out.

Numbers have all their places and no more digits than it takes to read them back. -/
namespace Formula.Expr

def numberText (x : Float) : List Char :=
  match FloatShape.ofFloat x with
  | .nan => "NaN".toList
  | .infinite negative => (if negative then "-inf" else "inf").toList
  | .finite negative m => (if negative then ['-'] else []) ++ (m.shortest .up).positional

def chars : Expr → List Char
  | .number value => numberText value
  | .var name | .const name => name.toList
  | .unary .negate operand => ['(', '-'] ++ operand.chars ++ [')']
  | .unary op operand => op.name.toList ++ ['('] ++ operand.chars ++ [')']
  | .binary op left right =>
    ['('] ++ left.chars ++ [' '] ++ op.symbol.toList ++ [' '] ++ right.chars ++ [')']

def text (expr : Expr) : String := String.ofList expr.chars

end Formula.Expr
