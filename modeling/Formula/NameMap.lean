/-! Finite maps from names.

A map is its list of entries in ascending order of the names, by code point, so
reading it off lists the names in order and two maps are equal as soon as they
answer every name alike (`ext`). `get?` is the view: what `insert` and `union` do
is said through it (`get?_insert`, `get?_union`). -/
namespace Formula

universe u
variable {α : Type u}

/-! ### Entry lists -/

namespace Entries

/-- The value of the first entry for a name. -/
def get? (name : String) : List (String × α) → Option α
  | [] => none
  | (key, value) :: rest => if name = key then some value else get? name rest

/-- Puts an entry at its place, instead of the one with the same name if there is one. -/
def insert (name : String) (value : α) : List (String × α) → List (String × α)
  | [] => [(name, value)]
  | (key, old) :: rest =>
    if name < key then (name, value) :: (key, old) :: rest
    else if name = key then (name, value) :: rest
    else (key, old) :: insert name value rest

/-- Each name is greater than the ones before it. -/
def Ascending (entries : List (String × α)) : Prop :=
  entries.Pairwise fun a b => a.1 < b.1

theorem mem_insert {name : String} {value : α} {entries : List (String × α)} {entry : String × α}
    (h : entry ∈ insert name value entries) : entry = (name, value) ∨ entry ∈ entries := by
  induction entries with
  | nil => simpa [insert] using h
  | cons head rest ih =>
    simp only [insert] at h
    split at h
    · simpa using h
    · split at h
      · rcases List.mem_cons.mp h with h | h
        · exact .inl h
        · exact .inr (List.mem_cons_of_mem _ h)
      · rcases List.mem_cons.mp h with h | h
        · exact .inr (h ▸ List.mem_cons_self)
        · exact (ih h).imp_right (List.mem_cons_of_mem _)

theorem Ascending.insert {name : String} {value : α} {entries : List (String × α)}
    (h : Ascending entries) : Ascending (insert name value entries) := by
  induction entries with
  | nil => exact List.pairwise_singleton ..
  | cons head rest ih =>
    obtain ⟨hhead, hrest⟩ := List.pairwise_cons.mp h
    simp only [Entries.insert]
    split
    · next hlt =>
      refine List.pairwise_cons.mpr ⟨fun entry hmem => ?_, h⟩
      rcases List.mem_cons.mp hmem with rfl | hmem
      · exact hlt
      · exact String.lt_trans hlt (hhead entry hmem)
    · split
      · next heq => exact List.pairwise_cons.mpr ⟨fun entry hmem => heq ▸ hhead entry hmem, hrest⟩
      · next hge hne =>
        refine List.pairwise_cons.mpr ⟨fun entry hmem => ?_, ih hrest⟩
        rcases mem_insert hmem with rfl | hmem
        · exact Std.lt_of_le_of_ne hge (Ne.symm hne)
        · exact hhead entry hmem

theorem get?_insert (name other : String) (value : α) (entries : List (String × α)) :
    get? other (insert name value entries) = if other = name then some value else get? other entries := by
  induction entries with
  | nil => rfl
  | cons head rest ih =>
    simp only [insert]
    split
    · rfl
    · split
      · next heq =>
        simp only [get?, ← heq]
        split <;> rfl
      · next hne =>
        simp only [get?, ih]
        by_cases h : other = head.1
        · simp [h, Ne.symm hne]
        · simp [h]

theorem get?_eq_none {name : String} {entries : List (String × α)}
    (h : ∀ entry ∈ entries, name < entry.1) : get? name entries = none := by
  induction entries with
  | nil => rfl
  | cons head rest ih =>
    have hne : name ≠ head.1 := fun he =>
      String.lt_irrefl head.1 (he ▸ h head List.mem_cons_self)
    simp only [get?, if_neg hne]
    exact ih fun entry hmem => h entry (List.mem_cons_of_mem _ hmem)

theorem isSome_get?_iff {name : String} {entries : List (String × α)} :
    (get? name entries).isSome ↔ name ∈ entries.map Prod.fst := by
  induction entries with
  | nil => simp [get?]
  | cons head rest ih =>
    simp only [get?]
    split <;> simp_all

theorem get?_of_mem {entries : List (String × α)} (h : Ascending entries) {entry : String × α}
    (hmem : entry ∈ entries) : get? entry.1 entries = some entry.2 := by
  induction entries with
  | nil => cases hmem
  | cons head rest ih =>
    obtain ⟨hhead, hrest⟩ := List.pairwise_cons.mp h
    rcases List.mem_cons.mp hmem with rfl | hmem
    · simp [get?]
    · have hne : entry.1 ≠ head.1 := fun he =>
        String.lt_irrefl entry.1 (he ▸ hhead entry hmem)
      simp only [get?, if_neg hne]
      exact ih hrest hmem

theorem mem_of_get? {name : String} {value : α} {entries : List (String × α)}
    (h : get? name entries = some value) : (name, value) ∈ entries := by
  induction entries with
  | nil => cases h
  | cons head rest ih =>
    simp only [get?] at h
    split at h
    · next heq =>
      cases h
      exact heq ▸ List.mem_cons_self
    · exact List.mem_cons_of_mem _ (ih h)

theorem get?_append (name : String) (a b : List (String × α)) :
    get? name (a ++ b) = (get? name a).or (get? name b) := by
  induction a with
  | nil => rfl
  | cons head rest ih =>
    simp only [List.cons_append, get?, ih]
    split <;> rfl

/-- No name has two entries, so the order of search does not matter. -/
theorem get?_reverse {entries : List (String × α)} (h : Ascending entries) (name : String) :
    get? name entries.reverse = get? name entries := by
  cases hr : get? name entries.reverse with
  | some value => exact (get?_of_mem h (List.mem_reverse.mp (mem_of_get? hr))).symm
  | none =>
    refine (Option.not_isSome_iff_eq_none.mp fun hs => ?_).symm
    rw [isSome_get?_iff, ← List.mem_reverse, ← List.map_reverse, ← isSome_get?_iff, hr] at hs
    cases hs

/-- Ascending lists that answer alike are equal: both start with the least name that has a value. -/
theorem Ascending.ext {a b : List (String × α)} (ha : Ascending a) (hb : Ascending b)
    (h : ∀ name, get? name a = get? name b) : a = b := by
  induction a generalizing b with
  | nil =>
    cases b with
    | nil => rfl
    | cons head rest => simpa [get?] using h head.1
  | cons x xs ih =>
    cases b with
    | nil => simpa [get?] using h x.1
    | cons y ys =>
      obtain ⟨hx, hxs⟩ := List.pairwise_cons.mp ha
      obtain ⟨hy, hys⟩ := List.pairwise_cons.mp hb
      have hkey : x.1 = y.1 := by
        rcases Std.lt_trichotomy x.1 y.1 with hlt | heq | hgt
        · have hnone : get? x.1 (y :: ys) = none := get?_eq_none fun entry hmem => by
            rcases List.mem_cons.mp hmem with rfl | hmem
            · exact hlt
            · exact String.lt_trans hlt (hy entry hmem)
          have := h x.1
          rw [hnone] at this
          simp [get?] at this
        · exact heq
        · have hnone : get? y.1 (x :: xs) = none := get?_eq_none fun entry hmem => by
            rcases List.mem_cons.mp hmem with rfl | hmem
            · exact hgt
            · exact String.lt_trans hgt (hx entry hmem)
          have := h y.1
          rw [hnone] at this
          simp [get?] at this
      have hvalue : x.2 = y.2 := by simpa [get?, hkey] using h x.1
      have htail : xs = ys := by
        refine ih hxs hys fun name => ?_
        by_cases he : name = x.1
        · rw [he, get?_eq_none hx, hkey, get?_eq_none hy]
        · have := h name
          simpa only [get?, if_neg he, if_neg (hkey ▸ he)] using this
      rw [htail, Prod.ext hkey hvalue]

end Entries

/-! ### Maps -/

structure NameMap (α : Type u) where
  entries : List (String × α)
  ascending : Entries.Ascending entries

namespace NameMap

def empty : NameMap α := ⟨[], List.Pairwise.nil⟩

def get? (m : NameMap α) (name : String) : Option α := Entries.get? name m.entries

/-- Gives `name` a value, in place of the one it had. -/
def insert (m : NameMap α) (name : String) (value : α) : NameMap α :=
  ⟨Entries.insert name value m.entries, m.ascending.insert⟩

def contains (m : NameMap α) (name : String) : Bool := (m.get? name).isSome

def size (m : NameMap α) : Nat := m.entries.length

/-- The names that have a value, in ascending order. -/
def names (m : NameMap α) : List String := m.entries.map Prod.fst

/-- Inserts the entries of a list in turn: of two for one name the later one stays. -/
def insertAll (m : NameMap α) (entries : List (String × α)) : NameMap α :=
  entries.foldl (fun m entry => m.insert entry.1 entry.2) m

def ofList (entries : List (String × α)) : NameMap α := empty.insertAll entries

/-- Both maps together; where both have a value, `other` decides. -/
def union (m other : NameMap α) : NameMap α := m.insertAll other.entries

@[ext] theorem ext {a b : NameMap α} (h : ∀ name, a.get? name = b.get? name) : a = b := by
  cases a with
  | mk as ha =>
    cases b with
    | mk bs hb => cases ha.ext hb h; rfl

instance [DecidableEq α] : DecidableEq (NameMap α) := fun a b =>
  decidable_of_iff (a.entries = b.entries)
    ⟨fun h => by cases a; cases b; cases h; rfl, fun h => h ▸ rfl⟩

@[simp] theorem get?_empty (name : String) : (empty : NameMap α).get? name = none := rfl

theorem get?_insert (m : NameMap α) (name other : String) (value : α) :
    (m.insert name value).get? other = if other = name then some value else m.get? other :=
  Entries.get?_insert name other value m.entries

/-- A list's later entries decide before its earlier ones, and those before the map. -/
theorem get?_insertAll (m : NameMap α) (entries : List (String × α)) (name : String) :
    (m.insertAll entries).get? name = (Entries.get? name entries.reverse).or (m.get? name) := by
  induction entries generalizing m with
  | nil => rfl
  | cons head rest ih =>
    show ((m.insert head.1 head.2).insertAll rest).get? name = _
    rw [ih, get?_insert, List.reverse_cons, Entries.get?_append, Option.or_assoc]
    simp only [Entries.get?]
    split <;> rfl

theorem get?_union (m other : NameMap α) (name : String) :
    (m.union other).get? name = (other.get? name).or (m.get? name) := by
  rw [union, get?_insertAll, Entries.get?_reverse other.ascending]
  rfl

theorem contains_iff_mem_names (m : NameMap α) (name : String) :
    m.contains name ↔ name ∈ m.names :=
  Entries.isSome_get?_iff

theorem contains_ofList (entries : List (String × α)) (name : String) :
    (ofList entries).contains name ↔ name ∈ entries.map Prod.fst := by
  rw [contains, ofList, get?_insertAll, get?_empty, Option.or_none, Entries.isSome_get?_iff, List.map_reverse,
    List.mem_reverse]

end NameMap

end Formula
