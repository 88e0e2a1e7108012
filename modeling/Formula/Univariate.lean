import Formula.Evaluation

/-! An expression as a function of one of its names. All other names have values in
an environment, which is checked once, so every argument has a value. -/
namespace Formula

structure Univariate where
  body : Expr
  parameter : String
  environment : Environment
  bound : ∀ name ∈ body.names, name = parameter ∨ environment.contains name

namespace Univariate

/-- Refuses an expression with another name that has no value; the first such name is reported. -/
def ofExpr (body : Expr) (parameter : String) (environment : Environment) :
    Except Error Univariate :=
  match h : body.names.find? fun name => name ≠ parameter ∧ ¬environment.contains name with
  | some name => .error (.unboundName name)
  | none => .ok
    { body, parameter, environment
      bound := fun name hname => by
        have := List.find?_eq_none.mp h name hname
        simp only [decide_eq_true_eq] at this
        by_cases hp : name = parameter
        · exact .inl hp
        · by_cases hc : environment.contains name
          · exact .inr hc
          · exact absurd ⟨hp, hc⟩ this }

/-- The parameter has the value of the argument, whatever the environment says of it. -/
def lookup (f : Univariate) (x : Float) (name : String) : Option Float :=
  if name = f.parameter then some x else f.environment.get? name

/-- The value at an argument. Every name is bound, so this is never the NaN. -/
def evaluate (f : Univariate) (x : Float) : Float :=
  match f.body.evaluateWith (f.lookup x) with
  | .ok value => value
  | .error _ => .ofBits 0x7ff8000000000000

end Univariate

end Formula
