import Formula.Builtin
import Formula.Error
import Formula.NameMap

/-! Function tables: which names are functions, and how many arguments each takes.

A name is never empty and a function takes at least one argument. `insert`
refuses anything else and every other operation keeps it, so it is part of the
type. Of two tables that are merged the second decides. -/
namespace Formula

structure Dialect where
  arities : NameMap Nat
  proper : ∀ name arity, arities.get? name = some arity → name ≠ "" ∧ 0 < arity
deriving DecidableEq

namespace Dialect

def empty : Dialect := ⟨.empty, by simp⟩

/-- Registers a function, in place of the one with the same name: what the table is then, and whether
the function was accepted. -/
def insert (table : Dialect) (name : String) (arity : Nat) : Dialect × Except Error Unit :=
  if harity : arity = 0 then (table, .error (.table (.zeroArity name)))
  else if hname : name = "" then (table, .error (.table .emptyName))
  else
    ({ arities := table.arities.insert name arity
       proper := fun other value h => by
        rw [NameMap.get?_insert] at h
        split at h
        · next heq =>
          cases h
          exact ⟨heq ▸ hname, Nat.pos_of_ne_zero harity⟩
        · exact table.proper other value h }, .ok ())

/-- The table with one more function, as a value to build on. -/
def withFunction (table : Dialect) (name : String) (arity : Nat) : Except Error Dialect :=
  let (next, result) := table.insert name arity
  result.map fun () => next

/-- Adds the functions of another table, which replace those with the same names. -/
def merge (table other : Dialect) : Dialect where
  arities := table.arities.union other.arities
  proper name arity h := by
    rw [NameMap.get?_union] at h
    cases hother : other.arities.get? name with
    | some value =>
      rw [hother] at h
      exact other.proper name arity (hother.trans h)
    | none =>
      rw [hother] at h
      exact table.proper name arity h

def arity (table : Dialect) (name : String) : Option Nat := table.arities.get? name

def contains (table : Dialect) (name : String) : Bool := table.arities.contains name

def size (table : Dialect) : Nat := table.arities.size

def isEmpty (table : Dialect) : Bool := table.arities.entries.isEmpty

/-- The names of the functions, in ascending order. -/
def names (table : Dialect) : List String := table.arities.names

/-- Each function with its arity, in the order of the names. -/
def listing (table : Dialect) : List (String × Nat) := table.arities.entries

/-- The built-in functions. -/
def default : Dialect where
  arities := .ofList (Builtin.all.map fun function => (function.name, function.arity))
  proper name arity h := by
    rw [NameMap.ofList, NameMap.get?_insertAll, NameMap.get?_empty, Option.or_none] at h
    have hall : ∀ entry ∈ Builtin.all.map fun function => (function.name, function.arity),
        entry.1 ≠ "" ∧ 0 < entry.2 := by decide
    exact hall _ (List.mem_reverse.mp (Entries.mem_of_get? h))

instance : Inhabited Dialect := ⟨default⟩

@[ext] theorem ext {a b : Dialect} (h : ∀ name, a.arity name = b.arity name) : a = b := by
  cases a with
  | mk as ha =>
    cases b with
    | mk bs hb => cases NameMap.ext (a := as) (b := bs) h; rfl

section
variable {table result : Dialect} {name : String} {arity : Nat} {error : Error}

/-- A table has a place for a function exactly if it has a name and takes an argument. -/
theorem insert_eq_ok_iff : (table.insert name arity).2 = .ok () ↔ name ≠ "" ∧ 0 < arity := by
  unfold insert
  split
  · next harity => simp [harity]
  · next harity =>
    split
    · next hname => simp [hname]
    · next hname => exact iff_of_true rfl ⟨hname, Nat.pos_of_ne_zero harity⟩

/-- A table that refuses a function is as it was. -/
theorem insert_of_error (h : (table.insert name arity).2 = .error error) : (table.insert name arity).1 = table := by
  unfold insert at h ⊢
  split
  · rfl
  · next harity =>
    rw [dif_neg harity] at h
    split
    · rfl
    · next hname =>
      rw [dif_neg hname] at h
      cases h

theorem arity_insert (h : (table.insert name arity).2 = .ok ()) (other : String) :
    (table.insert name arity).1.arity other = if other = name then some arity else table.arity other := by
  obtain ⟨hname, harity⟩ := insert_eq_ok_iff.mp h
  rw [insert, dif_neg (Nat.ne_of_gt harity), dif_neg hname]
  exact NameMap.get?_insert ..

theorem withFunction_eq_ok_iff :
    table.withFunction name arity = .ok result ↔
      (table.insert name arity).2 = .ok () ∧ (table.insert name arity).1 = result := by
  unfold withFunction
  rw [map_eq_ok_iff]
  exact ⟨fun ⟨_, hresult, h⟩ => ⟨hresult, h⟩, fun ⟨hresult, h⟩ => ⟨(), hresult, h⟩⟩

end

theorem arity_merge (table other : Dialect) (name : String) :
    (table.merge other).arity name = (other.arity name).or (table.arity name) :=
  NameMap.get?_union ..

theorem contains_default (name : String) : default.contains name ↔ name ∈ Builtin.all.map Builtin.name := by
  refine (NameMap.contains_ofList _ name).trans ?_
  rw [List.map_map]
  rfl

@[simp] theorem arity_empty (name : String) : empty.arity name = none := rfl

end Dialect

/-- A call needs exactly as many arguments as its function takes. -/
def checkArity (function : String) (expected actual : Nat) : Except Error Unit :=
  if expected = actual then .ok ()
  else .error <| .violation <|
    .arityMismatch function expected actual (if actual < expected then .tooFew else .tooMany)

end Formula
