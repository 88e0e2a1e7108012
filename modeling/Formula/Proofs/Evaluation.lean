import Formula.Univariate

/-! Which name an evaluation fails on.

An evaluation visits the leaves from left to right and fails on the first name without
a value. The names of an expression are those of its leaves in the same order, without
the repetitions, and leaving those out does not change which name of some sort comes
first (`Expr.find?_names`). So the failure can be told from the names alone
(`Expr.evaluateWith_eq_error_iff`): it is the first name that the environment does not
contain (`Expr.evaluate_fails_on_first_unbound`). An expression as a function of a
parameter is checked in that way, and it looks names up as an environment does in which
a scope for the argument is opened, so the two agree (`Univariate.agrees_with_evaluation`). -/
namespace Formula

namespace Expr

/-! ### The first name of some sort -/

/-- The names at the leaves, from left to right. -/
def leafNames : Expr → List String
  | .number _ => []
  | .var name | .const name => [name]
  | .unary _ operand => operand.leafNames
  | .binary _ left right => left.leafNames ++ right.leafNames

/-- A name that was seen before is not the first of any sort. -/
theorem find?_append_seen (p : String → Bool) (seen : List String) (name : String) :
    (if name ∈ seen then seen else seen ++ [name]).find? p = (seen ++ [name]).find? p := by
  split
  · next hseen =>
    rw [List.find?_append]
    cases hfirst : seen.find? p with
    | some first => rfl
    | none =>
      have hname : ¬ p name = true := List.find?_eq_none.mp hfirst name hseen
      rw [Option.none_or, List.find?_cons, List.find?_nil]
      simp only [hname]
  · rfl

theorem find?_collectNames (p : String → Bool) (seen : List String) (expr : Expr) :
    (expr.collectNames seen).find? p = (seen ++ expr.leafNames).find? p := by
  induction expr generalizing seen with
  | number value => rw [collectNames, leafNames, List.append_nil]
  | var name => exact find?_append_seen p seen name
  | const name => exact find?_append_seen p seen name
  | unary op operand ih => exact ih seen
  | binary op left right ihl ihr =>
    simp only [collectNames, leafNames]
    rw [ihr, List.find?_append, ihl, ← List.find?_append, List.append_assoc]

theorem find?_names (p : String → Bool) (expr : Expr) : expr.names.find? p = expr.leafNames.find? p :=
  find?_collectNames p [] expr

theorem mem_names_iff {name : String} {expr : Expr} : name ∈ expr.names ↔ name ∈ expr.leafNames := by
  have hfound := congrArg Option.isSome (find?_names (· == name) expr)
  rw [Bool.eq_iff_iff, List.find?_isSome, List.find?_isSome] at hfound
  simpa using hfound

/-! ### The failure of an evaluation -/

/-- Names for which a look-up finds no value. -/
def unbound (lookup : String → Option Float) (name : String) : Bool := (lookup name).isNone

/-- An evaluation succeeds if no leaf has an unbound name, and fails on the first otherwise. -/
theorem evaluateWith_cases (lookup : String → Option Float) (expr : Expr) :
    (∃ value, expr.evaluateWith lookup = .ok value ∧ expr.leafNames.find? (unbound lookup) = none) ∨
    ∃ name, expr.evaluateWith lookup = .error (.unboundName name) ∧
      expr.leafNames.find? (unbound lookup) = some name := by
  induction expr with
  | number value => exact .inl ⟨value, rfl, rfl⟩
  | var name | const name =>
    cases hname : lookup name with
    | some value =>
      exact .inl ⟨value, by simp only [evaluateWith, hname], by simp [leafNames, unbound, hname]⟩
    | none => exact .inr ⟨name, by simp only [evaluateWith, hname], by simp [leafNames, unbound, hname]⟩
  | unary op operand ih =>
    simp only [evaluateWith, leafNames]
    rcases ih with ⟨a, ha, hnone⟩ | ⟨name, ha, hsome⟩
    · rw [ha]
      exact .inl ⟨op.apply a, rfl, hnone⟩
    · rw [ha]
      exact .inr ⟨name, rfl, hsome⟩
  | binary op left right ihl ihr =>
    simp only [evaluateWith, leafNames, List.find?_append]
    rcases ihl with ⟨a, ha, hleft⟩ | ⟨name, ha, hleft⟩
    · rw [ha, hleft, Option.none_or]
      rcases ihr with ⟨b, hb, hright⟩ | ⟨name, hb, hright⟩
      · rw [hb]
        exact .inl ⟨op.apply a b, rfl, hright⟩
      · rw [hb]
        exact .inr ⟨name, rfl, hright⟩
    · -- The right operand is not evaluated any more, and its names come later.
      rw [ha, hleft, Option.some_or]
      exact .inr ⟨name, rfl, rfl⟩

theorem evaluateWith_eq_error_iff {lookup : String → Option Float} {expr : Expr} {error : Error} :
    expr.evaluateWith lookup = .error error ↔
      ∃ name, error = .unboundName name ∧ expr.names.find? (unbound lookup) = some name := by
  rw [find?_names]
  rcases evaluateWith_cases lookup expr with ⟨value, hvalue, hnone⟩ | ⟨name, herror, hsome⟩
  · rw [hvalue, hnone]
    simp
  · rw [herror, hsome]
    simp [eq_comm]

theorem exists_evaluateWith_iff {lookup : String → Option Float} {expr : Expr} :
    (∃ value, expr.evaluateWith lookup = .ok value) ↔ expr.names.find? (unbound lookup) = none := by
  rw [find?_names]
  rcases evaluateWith_cases lookup expr with ⟨value, hvalue, hnone⟩ | ⟨name, herror, hsome⟩
  · rw [hvalue, hnone]
    simp
  · rw [herror, hsome]
    simp

theorem unbound_get? (env : Environment) : unbound env.get? = fun name => !env.contains name := by
  funext name
  unfold unbound Environment.contains
  cases env.get? name <;> rfl

/-- **An evaluation fails exactly on the first name without a value**: it has a value if the environment
contains every name of the expression, and the only error is the first one that it does not contain,
whatever the numbers are. -/
theorem evaluate_fails_on_first_unbound (env : Environment) (expr : Expr) :
    ((∃ value, expr.evaluate env = .ok value) ↔ ∀ name ∈ expr.names, env.contains name) ∧
    ∀ error, expr.evaluate env = .error error ↔ ∃ before name later, error = .unboundName name ∧
      expr.names = before ++ name :: later ∧ (∀ other ∈ before, env.contains other) ∧ ¬ env.contains name := by
  have hfirst : ∀ name, expr.names.find? (unbound env.get?) = some name ↔ ∃ before later,
      expr.names = before ++ name :: later ∧ (∀ other ∈ before, env.contains other) ∧ ¬ env.contains name := by
    intro name
    rw [unbound_get?, List.find?_eq_some_iff_append]
    simp only [Bool.not_not, Bool.not_eq_true', Bool.not_eq_true]
    exact ⟨fun ⟨hname, before, later, hnames, hbefore⟩ => ⟨before, later, hnames, hbefore, hname⟩,
      fun ⟨before, later, hnames, hbefore, hname⟩ => ⟨hname, before, later, hnames, hbefore⟩⟩
  refine ⟨?_, fun error => ?_⟩
  · show (∃ value, expr.evaluateWith env.get? = .ok value) ↔ _
    rw [exists_evaluateWith_iff, unbound_get?, List.find?_eq_none]
    simp only [Bool.not_eq_true', Bool.not_eq_false]
  · show expr.evaluateWith env.get? = .error error ↔ _
    rw [evaluateWith_eq_error_iff]
    constructor
    · rintro ⟨name, herror, hname⟩
      obtain ⟨before, later, hnames⟩ := (hfirst name).mp hname
      exact ⟨before, name, later, herror, hnames⟩
    · rintro ⟨before, name, later, herror, hnames⟩
      exact ⟨name, herror, (hfirst name).mpr ⟨before, later, hnames⟩⟩

end Expr

namespace Univariate
variable {body : Expr} {parameter : String} {environment : Environment} {f : Univariate}

/-! ### The look-up of a function -/

/-- The environment with a scope of its own for the argument. -/
def scopeOf (parameter : String) (environment : Environment) (x : Float) : Environment :=
  environment.child.define parameter x

theorem get?_scopeOf (x : Float) (name : String) :
    (scopeOf parameter environment x).get? name =
      if name = parameter then some x else environment.get? name :=
  Environment.get?_define ..

/-- A function looks a name up as the scope of the argument does. -/
theorem lookup_eq_get? (f : Univariate) (x : Float) :
    f.lookup x = (scopeOf f.parameter f.environment x).get? :=
  funext fun name => (get?_scopeOf x name).symm

/-- The names that a function refuses are those without a value in the scope of any argument. -/
theorem unbound_scopeOf (x : Float) :
    Expr.unbound (scopeOf parameter environment x).get? =
      fun name => decide (name ≠ parameter ∧ ¬environment.contains name) := by
  funext name
  rw [Expr.unbound, get?_scopeOf]
  by_cases hname : name = parameter
  · simp [hname]
  · rw [if_neg hname, Environment.contains]
    cases environment.get? name with
    | some value => simp
    | none => simp [hname]

theorem ofExpr_eq_error_iff {error : Error} :
    ofExpr body parameter environment = .error error ↔ ∃ name, error = .unboundName name ∧
      body.names.find? (fun name => name ≠ parameter ∧ ¬environment.contains name) = some name := by
  unfold ofExpr
  split
  · next name hname =>
    rw [hname]
    simp [eq_comm]
  · next hnone =>
    refine ⟨fun h => (nomatch h), ?_⟩
    rintro ⟨name, -, hname⟩
    rw [hnone] at hname
    cases hname

theorem eq_of_ofExpr (h : ofExpr body parameter environment = .ok f) :
    f.body = body ∧ f.parameter = parameter ∧ f.environment = environment := by
  unfold ofExpr at h
  split at h
  · cases h
  · cases h
    exact ⟨rfl, rfl, rfl⟩

/-- Every name of the body is bound, so the NaN is not the value of any argument. -/
theorem evaluateWith_lookup (f : Univariate) (x : Float) :
    f.body.evaluateWith (f.lookup x) = .ok (f.evaluate x) := by
  have hbound : f.body.names.find? (Expr.unbound (f.lookup x)) = none := by
    rw [lookup_eq_get?, unbound_scopeOf]
    refine List.find?_eq_none.mpr fun name hname => ?_
    rcases f.bound name hname with rfl | hcontains
    · simp
    · simp [hcontains]
  obtain ⟨value, hvalue⟩ := Expr.exists_evaluateWith_iff.mpr hbound
  unfold evaluate
  rw [hvalue]

/-- **An expression as a function of one name agrees with its evaluation.** It is refused for an unbound
name exactly if its evaluation with a scope for the argument fails on that name, whatever the argument;
otherwise it has the value of that evaluation at every argument, and never the NaN in place of a failure. -/
theorem agrees_with_evaluation (body : Expr) (parameter : String) (environment : Environment) :
    (∀ name x, ofExpr body parameter environment = .error (.unboundName name) ↔
      body.evaluate (environment.child.define parameter x) = .error (.unboundName name)) ∧
    ((∃ name, ofExpr body parameter environment = .error (.unboundName name)) ∨
      ∃ f, ofExpr body parameter environment = .ok f ∧ ∀ x,
        f.body.evaluateWith (f.lookup x) = .ok (f.evaluate x) ∧
        body.evaluate (environment.child.define parameter x) = .ok (f.evaluate x)) := by
  refine ⟨fun name x => ?_, ?_⟩
  · show _ ↔ body.evaluateWith (scopeOf parameter environment x).get? = _
    rw [ofExpr_eq_error_iff, Expr.evaluateWith_eq_error_iff, unbound_scopeOf]
  · cases hf : ofExpr body parameter environment with
    | error error =>
      obtain ⟨name, rfl, -⟩ := ofExpr_eq_error_iff.mp hf
      exact .inl ⟨name, rfl⟩
    | ok f =>
      obtain ⟨rfl, rfl, rfl⟩ := eq_of_ofExpr hf
      refine .inr ⟨f, rfl, fun x => ?_⟩
      have hvalue := evaluateWith_lookup f x
      refine ⟨hvalue, ?_⟩
      rw [lookup_eq_get?] at hvalue
      exact hvalue

end Univariate

end Formula
