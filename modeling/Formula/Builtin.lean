import Formula.Operator

/-! The functions and constants that are known from the start. -/
namespace Formula

/-- A function, how many arguments it takes and the operator that a call of it stands for. -/
structure Builtin where
  name : String
  arity : Nat
  op : UnaryOp
deriving DecidableEq, Repr

namespace Builtin

def all : List Builtin :=
  [⟨"sin", 1, .sin⟩, ⟨"cos", 1, .cos⟩, ⟨"tg", 1, .tan⟩, ⟨"ctg", 1, .cot⟩, ⟨"sqrt", 1, .sqrt⟩, ⟨"exp", 1, .exp⟩,
    ⟨"ln", 1, .ln⟩]

/-- A function is printed under the name that it is called by. -/
theorem name_op : ∀ function ∈ all, function.op.name = function.name := by decide

def find? (name : String) : Option Builtin := all.find? (·.name == name)

end Builtin

/-- The operator that a call of this function stands for. -/
def UnaryOp.ofFunctionName? (name : String) : Option UnaryOp := (Builtin.find? name).map (·.op)

/-- The circle number and the base of the natural logarithm, to double precision. -/
def standardConstants : List (String × Float) :=
  [("pi", .ofBits 0x400921fb54442d18), ("e", .ofBits 0x4005bf0a8b145769)]

def isStandardConstant (name : String) : Bool := standardConstants.any (·.1 == name)

theorem isStandardConstant_iff (name : String) :
    isStandardConstant name ↔ name = "pi" ∨ name = "e" := by
  show (("pi" == name) || (("e" == name) || false)) = true ↔ _
  rw [Bool.or_false, Bool.or_eq_true, beq_iff_eq, beq_iff_eq, eq_comm, @eq_comm _ "e"]

end Formula
