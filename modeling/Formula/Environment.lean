import Formula.Builtin
import Formula.NameMap

/-! Values for names, in scopes. A name has the value of the innermost scope that
defines it, and definitions go to the innermost scope. -/
namespace Formula

structure Environment where
  /-- The innermost scope. -/
  scope : NameMap Float
  /-- The scopes around it, innermost first. -/
  outer : List (NameMap Float)

namespace Environment

def empty : Environment := ⟨.empty, []⟩

/-- Opens a scope inside the innermost one. -/
def child (env : Environment) : Environment := ⟨.empty, env.scope :: env.outer⟩

def define (env : Environment) (name : String) (value : Float) : Environment :=
  { env with scope := env.scope.insert name value }

/-- The environment with one more definition, as a value to build on. -/
def withBinding (env : Environment) (name : String) (value : Float) : Environment := env.define name value

/-- The standard constants and nothing else. -/
def standard : Environment :=
  standardConstants.foldl (fun env constant => env.define constant.1 constant.2) empty

def get? (env : Environment) (name : String) : Option Float :=
  (env.scope :: env.outer).findSome? (·.get? name)

def contains (env : Environment) (name : String) : Bool := (env.get? name).isSome

/-- As many scopes, and in each the same names with values that are equal as floats. -/
instance : BEq Environment where
  beq a b := (a.scope :: a.outer).map (·.entries) == (b.scope :: b.outer).map (·.entries)

@[simp] theorem get?_empty (name : String) : empty.get? name = none := rfl

@[simp] theorem get?_child (env : Environment) (name : String) :
    env.child.get? name = env.get? name := rfl

theorem get?_define (env : Environment) (name other : String) (value : Float) :
    (env.define name value).get? other = if other = name then some value else env.get? other := by
  simp only [get?, define, List.findSome?_cons, NameMap.get?_insert]
  by_cases h : other = name
  · simp only [if_pos h]
  · simp only [if_neg h]

end Environment

end Formula
