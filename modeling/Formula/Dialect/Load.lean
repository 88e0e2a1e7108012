import Formula.Dialect
import Formula.Json.Printer
import Formula.Json.Reader
import Formula.Report

/-! Function tables written as JSON: an object with the arity of each function.

The members are taken in ascending order of their names, the last of those with
one name, and the first that is wrong is reported. An arity is an unsigned
integer; whether it may stand in a table is for `Dialect.insert` to say. What is
wrong with a text that is not JSON is for the reader of JSON to explain, and the
explanation is passed on as it is. -/
namespace Formula.Dialect

/-- An arity as JSON. A float is none, even if its value is an integer. -/
def arityOfJson (name : String) : Json → Except Error Nat
  | .unsigned value => .ok value.toNat
  | value => .error (.table (.badArity name value.text))

/-- Registers functions in the order of the list. -/
def insertJson (table : Dialect) : List (String × Json) → Except Error Dialect
  | [] => .ok table
  | (name, value) :: rest => do
    let arity ← arityOfJson name value
    let (next, result) := table.insert name arity
    result
    next.insertJson rest

def ofJson : Json → Except Error Dialect
  | .object members => empty.insertJson (NameMap.ofList members).entries
  | _ => .error (.table .notAnObject)

def parse (explain : String → String) (text : String) : Except Error Dialect :=
  match Json.parse? text with
  | none => .error (.table (.invalidJson (explain text)))
  | some value => ofJson value

/-- Parses a table and logs how many functions it has. -/
def load (explain : String → String) (text : String) : Report Dialect :=
  match parse explain text with
  | .ok table => ⟨.ok table, [.loaded table.size]⟩
  | .error error => .quiet (.error error)

end Formula.Dialect
