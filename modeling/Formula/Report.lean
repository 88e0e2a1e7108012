import Formula.Error

/-! What an operation tells: its result, and the log lines it wrote on the way. -/
namespace Formula

/-- A fact worth a log line. -/
inductive Event where
  /-- A token passed the grammar. -/
  | transition (source target : State) (text : String)
  /-- A bracket closes the call of `name`. -/
  | closing (name : String) (separators : Nat)
  | accepted (tokens : Nat)
  | rejected (error : Error)
  /-- A function table was read. -/
  | loaded (functions : Nat)
deriving DecidableEq, Repr

/-- The steps of a scan are traces, its outcome and a loaded table are debug lines. -/
def Event.line : Event → String
  | .transition source target text => s!"TRACE {source} -> {target} on '{text}'"
  | .closing name separators => s!"TRACE closing call to {name} with {separators} separators"
  | .accepted tokens => s!"DEBUG accepted {tokens} tokens"
  | .rejected error => s!"DEBUG rejected input: {error}"
  | .loaded functions => s!"DEBUG loaded {functions} function arities from JSON"

structure Report (α : Type) where
  result : Except Error α
  log : List Event

namespace Report

/-- A result that nothing was logged for. -/
def quiet {α : Type} (result : Except Error α) : Report α := ⟨result, []⟩

def map {α β : Type} (f : α → β) (report : Report α) : Report β :=
  ⟨report.result.map f, report.log⟩

/-- The second report's log comes after the first one's; after an error nothing more happens. -/
def bind {α β : Type} (report : Report α) (next : α → Report β) : Report β :=
  match report.result with
  | .ok value => ⟨(next value).result, report.log ++ (next value).log⟩
  | .error error => ⟨.error error, report.log⟩

end Report

end Formula
