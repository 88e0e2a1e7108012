import Formula.Evaluation
import Formula.Proofs.Entries

/-! Scopes as one history of definitions.

A definition goes to the innermost scope and a new scope begins empty, so a name has its
value from a scope that was opened after every other one that defines it, and there from the
definition made last. The scopes leave no trace but the order of the definitions: to look a
name up is to read them from the last one back (`Environment.get?_of_made`), and an expression
has the value that it has where the same definitions are made in a single scope. -/
namespace Formula

namespace Environment

/-- How an environment is made from one to begin with, and the definitions made on the way, in their order. -/
inductive Made : Environment → List (String × Float) → Prop where
  | empty : Made empty []
  | standard : Made standard standardConstants
  | define {env : Environment} {past : List (String × Float)} (hpast : Made env past) (name : String)
      (value : Float) : Made (env.define name value) (past ++ [(name, value)])
  | withBinding {env : Environment} {past : List (String × Float)} (hpast : Made env past) (name : String)
      (value : Float) : Made (env.withBinding name value) (past ++ [(name, value)])
  | child {env : Environment} {past : List (String × Float)} (hpast : Made env past) : Made env.child past

/-- A single scope in which all these definitions are made. -/
def flat (past : List (String × Float)) : Environment := ⟨.ofList past, []⟩

variable {env : Environment} {past : List (String × Float)}

theorem get?_define_of_past (h : ∀ name, env.get? name = Entries.get? name past.reverse) (name other : String)
    (value : Float) :
    (env.define name value).get? other = Entries.get? other (past ++ [(name, value)]).reverse := by
  rw [get?_define, List.reverse_concat, Entries.get?, h]

/-- The definitions are looked through from the last one back, whatever scopes they were made in. -/
theorem get?_of_made (h : Made env past) (name : String) : env.get? name = Entries.get? name past.reverse := by
  induction h generalizing name with
  | empty => rfl
  | standard => simp [standard, standardConstants, get?_define, Entries.get?]
  | define _ other value ih => exact get?_define_of_past ih other name value
  | withBinding _ other value ih => exact get?_define_of_past ih other name value
  | child _ ih => exact ih name

theorem get?_flat (past : List (String × Float)) (name : String) :
    (flat past).get? name = Entries.get? name past.reverse := by
  have hscope : (flat past).scope.get? name = Entries.get? name past.reverse := NameMap.get?_ofList past name
  rw [get?, List.findSome?_cons, hscope]
  cases Entries.get? name past.reverse <;> rfl

theorem contains_of_made (h : Made env past) (name : String) : env.contains name ↔ name ∈ past.map Prod.fst := by
  rw [contains, get?_of_made h, Entries.isSome_get?_iff, List.map_reverse, List.mem_reverse]

/-- **Of all definitions of a name the last one counts**, in whichever scope each was made: it is the value of
the name, and a name without a definition has none. So an expression has the value, or fails for
the name, that it has or fails for in a single scope with the same definitions. -/
theorem last_definition_counts (h : Made env past) :
    (∀ name value, env.get? name = some value ↔
      ∃ before later, past = before ++ (name, value) :: later ∧ name ∉ later.map Prod.fst) ∧
    (∀ name, env.get? name = none ↔ name ∉ past.map Prod.fst) ∧
    (∀ name, env.contains name ↔ name ∈ past.map Prod.fst) ∧
    (∀ name, (flat past).get? name = env.get? name) ∧
    ∀ expr : Expr, expr.evaluate env = expr.evaluate (flat past) := by
  have hflat : ∀ name, (flat past).get? name = env.get? name := fun name => by rw [get?_flat, get?_of_made h]
  refine ⟨fun name value => ?_, fun name => ?_, contains_of_made h, hflat, fun expr => ?_⟩
  · rw [get?_of_made h]
    exact Entries.get?_reverse_eq_some_iff
  · rw [← contains_of_made h, contains, Option.not_isSome_iff_eq_none]
  · exact congrArg expr.evaluateWith (funext fun name => (hflat name).symm)

/-- Inner scopes define `pi` and `x` anew: `pi` is 3 there, and `pi * x` has the value that it has in one scope. -/
theorem last_definition_counts_redefined :
    ((((standard.withBinding "x" 1).child.define "pi" 3).child.define "x" 2).child).get? "pi" = some 3 ∧
    (Expr.binary .multiply (.const "pi") (.var "x")).evaluate
        ((((standard.withBinding "x" 1).child.define "pi" 3).child.define "x" 2).child) =
      (Expr.binary .multiply (.const "pi") (.var "x")).evaluate
        (flat (standardConstants ++ [("x", 1)] ++ [("pi", 3)] ++ [("x", 2)])) := by
  have hmade := Made.child (.define (.child (.define (.child (.withBinding .standard "x" 1)) "pi" 3)) "x" 2)
  obtain ⟨hvalue, -, -, -, hevaluate⟩ := last_definition_counts hmade
  refine ⟨(hvalue "pi" 3).mpr ⟨standardConstants ++ [("x", 1)], [("x", 2)], rfl, by decide⟩, hevaluate _⟩

end Environment

end Formula
