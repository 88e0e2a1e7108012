import Mathlib.Logic.Function.Basic
import Formula.Proofs.Loading

/-! Function tables as what was written to them.

Tables are made and changed by a handful of operations, several of which take another table
or fail. A shelf has a table in every place and keeps, beside each, the functions that were
written on the way to it (`Shelf.writes`). Whatever an operation leaves in a place is put there,
whether it fails or not: that one that fails leaves the shelf as it was is a property of the
operations (`Shelf.perform_of_error`), and any other keeps the tables and the writes together
(`Shelf.Recorded.perform`). So after any operations a table is read off its writes, of which the
last one for a name counts. -/
namespace Formula

universe u

namespace Dialect

/-- Names have the arities that were written for them last. -/
def Recorded (table : Dialect) (writes : List (String × Nat)) : Prop :=
  ∀ name, table.arity name = Entries.get? name writes.reverse

/-- The functions that the text of a table gives arities for, in the order of their names. -/
def written (text : String) : List (String × Nat) :=
  match Json.parse? text with
  | some (.object members) => given (NameMap.ofList members).entries
  | _ => []

variable {table other result : Dialect} {writes : List (String × Nat)} {name : String} {arity : Nat}

/-! ### One operation -/

theorem recorded_empty : Recorded empty [] := fun _ => rfl

theorem recorded_default :
    Recorded default (Builtin.all.map fun function => (function.name, function.arity)) :=
  NameMap.get?_ofList _

theorem Recorded.insert (h : Recorded table writes) (haccepted : (table.insert name arity).2 = .ok ()) :
    Recorded (table.insert name arity).1 (writes ++ [(name, arity)]) := by
  intro key
  rw [arity_insert haccepted, List.reverse_concat, Entries.get?, h]

theorem exists_withFunction_iff :
    (∃ result, table.withFunction name arity = .ok result) ↔ name ≠ "" ∧ 0 < arity := by
  simp only [withFunction_eq_ok_iff, exists_and_left, exists_eq', and_true]
  exact insert_eq_ok_iff

theorem Recorded.withFunction (h : Recorded table writes) (hresult : table.withFunction name arity = .ok result) :
    Recorded result (writes ++ [(name, arity)]) := by
  obtain ⟨haccepted, rfl⟩ := withFunction_eq_ok_iff.mp hresult
  exact h.insert haccepted

/-- All the functions of the other table are written. -/
theorem Recorded.merge (h : Recorded table writes) (other : Dialect) :
    Recorded (table.merge other) (writes ++ other.listing) := by
  intro key
  rw [arity_merge, List.reverse_append, Entries.get?_append, h]
  apply congrArg (Option.or · _)
  exact (Entries.get?_reverse other.arities.ascending key).symm

theorem recorded_load {explain : String → String} {text : String} (h : (load explain text).result = .ok result) :
    Recorded result (written text) := by
  intro key
  rw [load_result, parse] at h
  rw [written]
  split at h
  · cases h
  · next value hvalue =>
    cases value with
    | object members => simpa [hvalue] using arity_insertJson h key
    | _ => cases h

/-! ### What a table answers -/

/-- The table is a map of the names that were written, each to what was written for it last. -/
structure Answers (table : Dialect) (writes : List (String × Nat)) : Prop where
  proper : ∀ name arity, table.arity name = some arity → name ≠ "" ∧ 0 < arity
  arity_eq_some_iff : ∀ name arity, table.arity name = some arity ↔ Entries.IsLast writes name arity
  arity_eq_none_iff : ∀ name, table.arity name = none ↔ name ∉ writes.map Prod.fst
  /-- The names are in the order of their bytes. -/
  names_ascending : table.names.Pairwise fun a b => utf8 a < utf8 b
  mem_names_iff : ∀ name, name ∈ table.names ↔ ∃ arity, table.arity name = some arity
  size_eq : table.size = table.names.length
  contains_iff : ∀ name, table.contains name ↔ name ∈ table.names
  isEmpty_iff : table.isEmpty ↔ table.names = []

theorem Recorded.answers (h : Recorded table writes) : Answers table writes where
  proper := table.proper
  arity_eq_some_iff name arity := by
    rw [h]
    exact Entries.get?_reverse_eq_some_iff
  arity_eq_none_iff name := by
    rw [h]
    exact Entries.get?_reverse_eq_none_iff
  names_ascending := by
    simp only [utf8_lt_utf8_iff]
    exact List.pairwise_map.mpr table.arities.ascending
  mem_names_iff name := (table.arities.contains_iff_mem_names name).symm.trans Option.isSome_iff_exists
  size_eq := (List.length_map Prod.fst).symm
  contains_iff := table.arities.contains_iff_mem_names
  isEmpty_iff := List.isEmpty_iff.trans List.map_eq_nil_iff.symm

theorem beq_iff : table == other ↔ ∀ name, table.arity name = other.arity name := by
  rw [beq_iff_eq]
  exact ⟨fun h name => h ▸ rfl, ext⟩

/-! ### Merging -/

theorem merge_assoc (a b c : Dialect) : (a.merge b).merge c = a.merge (b.merge c) := by
  ext name
  simp only [arity_merge, Option.or_assoc]

theorem merge_self (a : Dialect) : a.merge a = a := by
  ext name
  rw [arity_merge, Option.or_self]

theorem empty_merge (a : Dialect) : empty.merge a = a := by
  ext name
  rw [arity_merge, arity_empty, Option.or_none]

theorem merge_empty (a : Dialect) : a.merge empty = a := by
  ext name
  rw [arity_merge, arity_empty, Option.none_or]

/-! ### Operations on any number of tables -/

/-- What is done in a place: a table is put there, or the one that is there is changed. -/
inductive Operation (σ : Type u) where
  | default
  | empty
  | insert (name : String) (arity : Nat)
  /-- Puts the table of another place there, with one more function. -/
  | withFunction (source : σ) (name : String) (arity : Nat)
  | merge (other : σ)
  | load (text : String)
  | copy (source : σ)

/-- A table in every place, and what was written on the way to it. -/
structure Shelf (σ : Type u) where
  table : σ → Dialect
  writes : σ → List (String × Nat)

/-- Puts a new table in place of the old one, if there is a new one. -/
def assign (old : Dialect) : Except Error Dialect → Dialect × Except Error Unit
  | .ok table => (table, .ok ())
  | .error error => (old, .error error)

theorem assign_of_ok {old : Dialect} {made : Except Error Dialect} (h : (assign old made).2 = .ok ()) :
    made = .ok (assign old made).1 := by
  cases made with
  | ok table => rfl
  | error error => cases h

theorem assign_of_error {old : Dialect} {made : Except Error Dialect} {error : Error}
    (h : (assign old made).2 = .error error) : (assign old made).1 = old := by
  cases made with
  | ok table => cases h
  | error error => rfl

theorem assign_eq_ok_iff {old : Dialect} {made : Except Error Dialect} :
    (assign old made).2 = .ok () ↔ ∃ table, made = .ok table := by
  cases made with
  | ok table => exact iff_of_true rfl ⟨table, rfl⟩
  | error error => exact iff_of_false (fun h => nomatch h) fun ⟨_, h⟩ => nomatch h

namespace Shelf
variable {σ : Type u} {shelf : Shelf σ} {place : σ} {operation : Operation σ} {error : Error}

/-- No table has a function yet. -/
def bare : Shelf σ := ⟨fun _ => .empty, fun _ => []⟩

section
variable (explain : String → String)

/-- What an operation leaves in a place, and whether it succeeds. A table that is made from others, or from a text, is
put there when it is made; the others are changed where they are. -/
def outcome (shelf : Shelf σ) (place : σ) : Operation σ → Dialect × Except Error Unit
  | .default => (.default, .ok ())
  | .empty => (.empty, .ok ())
  | .insert name arity => (shelf.table place).insert name arity
  | .withFunction source name arity => assign (shelf.table place) ((shelf.table source).withFunction name arity)
  | .merge other => ((shelf.table place).merge (shelf.table other), .ok ())
  | .load text => assign (shelf.table place) (Dialect.load explain text).result
  | .copy source => (shelf.table source, .ok ())

/-- The writes on the way to that table. -/
def history (shelf : Shelf σ) (place : σ) : Operation σ → List (String × Nat)
  | .default => Builtin.all.map fun function => (function.name, function.arity)
  | .empty => []
  | .insert name arity => shelf.writes place ++ [(name, arity)]
  | .withFunction source name arity => shelf.writes source ++ [(name, arity)]
  | .merge other => shelf.writes place ++ (shelf.table other).listing
  | .load text => written text
  | .copy source => shelf.writes source

end

variable {explain : String → String}

/-- In every place there is the table of its writes. -/
def Recorded (shelf : Shelf σ) : Prop := ∀ place, (shelf.table place).Recorded (shelf.writes place)

theorem recorded_bare : (bare : Shelf σ).Recorded := fun _ => recorded_empty

/-- What fails leaves the table that was there. -/
theorem outcome_of_error (h : (shelf.outcome explain place operation).2 = .error error) :
    (shelf.outcome explain place operation).1 = shelf.table place := by
  cases operation with
  | insert name arity => exact insert_of_error h
  | withFunction source name arity => exact assign_of_error h
  | load text => exact assign_of_error h
  | _ => cases h

theorem Recorded.outcome (h : shelf.Recorded) (hok : (shelf.outcome explain place operation).2 = .ok ()) :
    (shelf.outcome explain place operation).1.Recorded (shelf.history place operation) := by
  cases operation with
  | default => exact recorded_default
  | empty => exact recorded_empty
  | insert name arity => exact (h place).insert hok
  | withFunction source name arity => exact (h source).withFunction (assign_of_ok hok)
  | merge other => exact (h place).merge (shelf.table other)
  | load text => exact recorded_load (assign_of_ok hok)
  | copy source => exact h source

variable [DecidableEq σ]

section
variable (explain : String → String)

/-- Leaves in the place what the operation leaves there. Only what succeeds is a write. -/
def perform (shelf : Shelf σ) (place : σ) (operation : Operation σ) : Shelf σ :=
  let (table, result) := shelf.outcome explain place operation
  { table := Function.update shelf.table place table
    writes := match result with
      | .ok () => Function.update shelf.writes place (shelf.history place operation)
      | .error _ => shelf.writes }

def run (shelf : Shelf σ) (steps : List (σ × Operation σ)) : Shelf σ :=
  steps.foldl (fun shelf step => shelf.perform explain step.1 step.2) shelf

end

@[simp] theorem table_perform : (shelf.perform explain place operation).table =
    Function.update shelf.table place (shelf.outcome explain place operation).1 := rfl

theorem writes_perform_of_ok (h : (shelf.outcome explain place operation).2 = .ok ()) :
    (shelf.perform explain place operation).writes =
      Function.update shelf.writes place (shelf.history place operation) := by
  simp only [perform, h]

/-- An operation that fails changes nothing. -/
theorem perform_of_error (h : (shelf.outcome explain place operation).2 = .error error) :
    shelf.perform explain place operation = shelf := by
  simp only [perform, h, outcome_of_error h, Function.update_eq_self]

/-- An operation changes no table but the one in its place. -/
theorem table_perform_of_ne {other : σ} (h : other ≠ place) :
    (shelf.perform explain place operation).table other = shelf.table other := by
  rw [table_perform, Function.update_of_ne h]

theorem Recorded.perform (h : shelf.Recorded) (place : σ) (operation : Operation σ) :
    (shelf.perform explain place operation).Recorded := by
  cases hresult : (shelf.outcome explain place operation).2 with
  | ok =>
    intro other
    rw [table_perform, writes_perform_of_ok hresult]
    by_cases hother : other = place
    · subst hother
      simpa using h.outcome hresult
    · simpa [hother] using h other
  | error error => rwa [perform_of_error hresult]

theorem Recorded.run (h : shelf.Recorded) (steps : List (σ × Operation σ)) : (shelf.run explain steps).Recorded := by
  induction steps generalizing shelf with
  | nil => exact h
  | cons step rest ih => exact ih (h.perform step.1 step.2)

end Shelf

/-- **Tables are maps of what was written to them**, after any operations on any number of them. A function is
written if it has a name and takes an argument, and the last one for a name stays; what fails leaves every
table as it was, and what is done in one place changes no table in another. Tables that answer alike are
equal, so merging is associative and idempotent, the empty table adds nothing, and the second table decides. -/
theorem tables_faithful {σ : Type u} [DecidableEq σ] (explain : String → String) (steps : List (σ × Operation σ)) :
    let shelf := Shelf.bare.run explain steps
    (∀ place, Answers (shelf.table place) (shelf.writes place)) ∧
    (∀ place operation error, (shelf.outcome explain place operation).2 = .error error →
      shelf.perform explain place operation = shelf) ∧
    (∀ place operation other, other ≠ place →
      (shelf.perform explain place operation).table other = shelf.table other) ∧
    (∀ place source name arity,
      ((shelf.outcome explain place (.insert name arity)).2 = .ok () ↔ name ≠ "" ∧ 0 < arity) ∧
      ((shelf.outcome explain place (.withFunction source name arity)).2 = .ok () ↔ name ≠ "" ∧ 0 < arity)) ∧
    (∀ a b : Dialect, a == b ↔ ∀ name, a.arity name = b.arity name) ∧
    ∀ a b c : Dialect, (a.merge b).merge c = a.merge (b.merge c) ∧ a.merge a = a ∧ empty.merge a = a ∧
      a.merge empty = a ∧ ∀ name, (a.merge b).arity name = (b.arity name).or (a.arity name) := by
  intro shelf
  have hrecorded : shelf.Recorded := Shelf.recorded_bare.run steps
  refine ⟨fun place => (hrecorded place).answers, fun place operation error => Shelf.perform_of_error,
    fun place operation other => Shelf.table_perform_of_ne, fun place source name arity => ⟨insert_eq_ok_iff, ?_⟩,
    fun a b => beq_iff, fun a b c => ?_⟩
  · exact assign_eq_ok_iff.trans exists_withFunction_iff
  · exact ⟨merge_assoc a b c, merge_self a, empty_merge a, merge_empty a, arity_merge a b⟩

/-- A copy of the built-in table gets one function more, another arity for `sin`, and a refusal, and is merged
back: `sin` has the arity that was written, not the one refused after it. -/
theorem tables_faithful_merged :
    let steps : List (Bool × Operation Bool) :=
      [(true, .default), (false, .withFunction true "log" 2), (false, .insert "sin" 3), (false, .insert "sin" 0),
        (true, .merge false)]
    ((Shelf.bare.run id steps).table true).arity "sin" = some 3 ∧
      ((Shelf.bare.run id steps).table true).arity "sine" = none := by
  intro steps
  obtain ⟨hanswers, -⟩ := tables_faithful id steps
  constructor
  · apply ((hanswers true).arity_eq_some_iff "sin" 3).mpr
    exact ⟨Builtin.all.map (fun function => (function.name, function.arity)) ++
      [("cos", 1), ("ctg", 1), ("exp", 1), ("ln", 1), ("log", 2)], [("sqrt", 1), ("tg", 1)], rfl, by decide⟩
  · apply ((hanswers true).arity_eq_none_iff "sine").mpr
    decide

end Dialect

end Formula
