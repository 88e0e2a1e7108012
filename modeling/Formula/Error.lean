import Formula.State

/-! Why an expression, a function table or an evaluation is refused, and the
wording of each cause. -/
namespace Formula

/-- On which side a call misses its number of arguments. -/
inductive Mismatch where
  | tooFew
  | tooMany
deriving DecidableEq, Repr

def Mismatch.text : Mismatch → String
  | .tooFew => "too few"
  | .tooMany => "too many"

inductive Bracket where
  | left
  | right
deriving DecidableEq, Repr

def Bracket.text : Bracket → String
  | .left => "("
  | .right => ")"

/-- What is wrong with a list of tokens as an expression. -/
inductive Violation where
  /-- The token may not follow the state; without a token, the input ended where one was due. -/
  | unexpectedToken (token? : Option Token) (state : State) (position : Nat)
  | arityMismatch (function : String) (expected actual : Nat) (mismatch : Mismatch)
  /-- The bracket that has no partner lacks this one. -/
  | unbalancedBrackets (missing : Bracket)
deriving DecidableEq, Repr

def Violation.message : Violation → String
  | .unexpectedToken (some token) state position =>
    s!"unexpected token {token} at position {position} after {state}"
  | .unexpectedToken none state _ => s!"unexpected end of input after {state}"
  | .arityMismatch function expected actual mismatch =>
    s!"{mismatch.text} arguments in {function}: expected {expected}, got {actual}"
  | .unbalancedBrackets missing => s!"unbalanced brackets: missing '{missing.text}'"

/-- What is wrong with a function table. -/
inductive TableFault where
  | zeroArity (name : String)
  | emptyName
  /-- The text is not JSON, and the cause is what the reader of JSON says of it. -/
  | invalidJson (cause : String)
  | notAnObject
  /-- The JSON value given for a name, as it is written, is not an unsigned integer. -/
  | badArity (name value : String)
deriving DecidableEq, Repr

def TableFault.message : TableFault → String
  | .zeroArity name => s!"function '{name}' must take at least one argument"
  | .emptyName => "function name must not be empty"
  | .invalidJson cause => s!"invalid JSON: {cause}"
  | .notAnObject => "function table must be a JSON object"
  | .badArity name value => s!"arity of '{name}' must be a positive integer, got {value}"

inductive Error where
  | violation (violation : Violation)
  /-- A function that is called but has no arity. -/
  | unknownFunction (name : String)
  /-- A name that is evaluated but has no value. -/
  | unboundName (name : String)
  /-- No token starts with this character, which stands at this byte. -/
  | lexical (position : Nat) (found : Char)
  | table (fault : TableFault)
deriving DecidableEq, Repr

namespace Error

/-- What a lexical error says of the character. -/
def unexpectedCharacter (found : Char) : String := s!"unexpected character '{found}'"

def message : Error → String
  | .violation cause => s!"syntax error: {cause.message}"
  | .unknownFunction name => s!"unknown function: {name}"
  | .unboundName name => s!"unbound name: {name}"
  | .lexical position found =>
    s!"lexical error at position {position}: {unexpectedCharacter found}"
  | .table fault => s!"configuration error: {fault.message}"

instance : ToString Error := ⟨message⟩

end Error

/-! ### Results that may be errors -/

section
variable {ε α β γ : Type} {x : Except ε α} {b : β} {e : ε}

theorem bind_bind {f : α → Except ε β} {g : β → Except ε γ} : (x.bind f).bind g = x.bind fun a => (f a).bind g :=
  bind_assoc x f g

theorem bind_eq_ok_iff {f : α → Except ε β} : x.bind f = .ok b ↔ ∃ a, x = .ok a ∧ f a = .ok b := by
  cases x with
  | error e => exact ⟨fun h => (nomatch h), fun ⟨_, h, _⟩ => (nomatch h)⟩
  | ok a => exact ⟨fun h => ⟨a, rfl, h⟩, fun ⟨_, rfl, h⟩ => h⟩

theorem map_eq_ok_iff {f : α → β} : x.map f = .ok b ↔ ∃ a, x = .ok a ∧ f a = b := by
  cases x with
  | error e => exact ⟨fun h => (nomatch h), fun ⟨_, h, _⟩ => (nomatch h)⟩
  | ok a => exact ⟨fun h => ⟨a, rfl, Except.ok.inj h⟩, fun ⟨_, rfl, h⟩ => congrArg Except.ok h⟩

theorem map_eq_error_iff {f : α → β} : x.map f = .error e ↔ x = .error e := by
  cases x with
  | error e' =>
    rw [Except.error.injEq]
    exact ⟨Except.error.inj, congrArg Except.error⟩
  | ok a => exact ⟨fun h => (nomatch h), fun h => (nomatch h)⟩

end

end Formula
