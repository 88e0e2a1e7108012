import Formula.Expr.Printer
import Formula.Proofs.Evaluation

/-! What an evaluation depends on.

An evaluation looks up the names at the leaves and nothing else, so two environments that
agree on the names of an expression cannot be told apart by it, be their scopes as they
may. And it never asks whether a name is that of a variable or of a constant: neither do
the names, the depth and the text of an expression, so leaves may be taken for the other
sort (`Expr.Alike`) and none of these changes. -/
namespace Formula.Expr

/-- The same expression, with the same bits in its numbers, except that variables may stand for constants of
the same names, and constants for variables. -/
inductive Alike : Expr → Expr → Prop where
  | number (value : Float) : Alike (.number value) (.number value)
  | var (name : String) : Alike (.var name) (.var name)
  | const (name : String) : Alike (.const name) (.const name)
  | varConst (name : String) : Alike (.var name) (.const name)
  | constVar (name : String) : Alike (.const name) (.var name)
  | unary {operand other : Expr} (op : UnaryOp) (hoperand : Alike operand other) :
    Alike (.unary op operand) (.unary op other)
  | binary {left right otherLeft otherRight : Expr} (op : BinaryOp) (hleft : Alike left otherLeft)
      (hright : Alike right otherRight) : Alike (.binary op left right) (.binary op otherLeft otherRight)

theorem evaluateWith_congr {lookup other : String → Option Float} {expr : Expr}
    (h : ∀ name ∈ expr.leafNames, lookup name = other name) :
    expr.evaluateWith lookup = expr.evaluateWith other := by
  induction expr with
  | number value => rfl
  | var name | const name =>
    have hname : lookup name = other name := h name List.mem_cons_self
    simp only [evaluateWith, hname]
  | unary op operand ih => simp only [evaluateWith, ih h]
  | binary op left right ihl ihr =>
    have hleft := fun name hmem => h name (List.mem_append_left _ hmem)
    have hright := fun name hmem => h name (List.mem_append_right _ hmem)
    simp only [evaluateWith, ihl hleft, ihr hright]

namespace Alike
variable {expr other : Expr}

theorem evaluateWith_eq (h : expr.Alike other) (lookup : String → Option Float) :
    other.evaluateWith lookup = expr.evaluateWith lookup := by
  induction h with
  | number | var | const | varConst | constVar => rfl
  | unary op _ ih => simp only [evaluateWith, ih]
  | binary op _ _ ihl ihr => simp only [evaluateWith, ihl, ihr]

theorem collectNames_eq (h : expr.Alike other) (seen : List String) :
    other.collectNames seen = expr.collectNames seen := by
  induction h generalizing seen with
  | number | var | const | varConst | constVar => rfl
  | unary op _ ih => exact ih seen
  | binary op _ _ ihl ihr => simp only [collectNames, ihl, ihr]

theorem depth_eq (h : expr.Alike other) : other.depth = expr.depth := by
  induction h with
  | number | var | const | varConst | constVar => rfl
  | unary op _ ih => simp only [depth, ih]
  | binary op _ _ ihl ihr => simp only [depth, ihl, ihr]

theorem chars_eq (h : expr.Alike other) : other.chars = expr.chars := by
  induction h with
  | number | var | const | varConst | constVar => rfl
  | unary op _ ih => cases op <;> simp only [chars, ih]
  | binary op _ _ ihl ihr => simp only [chars, ihl, ihr]

end Alike

/-- **An evaluation depends on the values of its names and on nothing else**: where environments agree on
the names of an expression it has the same value or fails for the same name. Taking variables for
constants or back changes no evaluation, nor the names, the depth and the text. -/
theorem evaluate_coincides (expr : Expr) :
    (∀ env other : Environment, (∀ name ∈ expr.names, env.get? name = other.get? name) →
      expr.evaluate env = expr.evaluate other) ∧
    ∀ recast, expr.Alike recast → (∀ env, recast.evaluate env = expr.evaluate env) ∧
      recast.names = expr.names ∧ recast.depth = expr.depth ∧ recast.text = expr.text := by
  refine ⟨fun env other h => ?_, fun recast h => ⟨fun env => ?_, ?_, h.depth_eq, ?_⟩⟩
  · exact evaluateWith_congr fun name hmem => h name (mem_names_iff.mpr hmem)
  · exact h.evaluateWith_eq env.get?
  · exact h.collectNames_eq []
  · exact congrArg String.ofList h.chars_eq

/-- Whether `x` is defined with the constants or in a scope of its own, next to a name that does not
occur, `x + sin(pi)` is the same, and so it is with a variable `pi`. -/
theorem evaluate_coincides_scopes :
    (Expr.binary .add (.var "x") (.unary .sin (.const "pi"))).evaluate (Environment.standard.define "x" 1) =
      (Expr.binary .add (.var "x") (.unary .sin (.const "pi"))).evaluate
        ((Environment.standard.child.define "x" 1).define "y" 2) ∧
    (Expr.binary .add (.var "x") (.unary .sin (.var "pi"))).evaluate .standard =
      (Expr.binary .add (.var "x") (.unary .sin (.const "pi"))).evaluate .standard := by
  obtain ⟨henvironments, hrecast⟩ := evaluate_coincides (.binary .add (.var "x") (.unary .sin (.const "pi")))
  refine ⟨henvironments _ _ fun name hname => ?_,
    (hrecast _ (.binary .add (.var "x") (.unary .sin (.constVar "pi")))).1 .standard⟩
  obtain rfl | rfl : name = "x" ∨ name = "pi" := by simpa [names, collectNames] using hname
  · rfl
  · rfl

end Formula.Expr
