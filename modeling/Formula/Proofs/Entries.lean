import Mathlib.Data.List.Induction
import Formula.NameMap

/-! What a list of entries says of a name, when a later entry replaces an earlier one.

The entry that counts is the last one for its name. A map that is made from the list
has these entries and no others, in the order of their names, so that the first of
them with some property is the one with the least name (`Ascending.findSome?_eq_some_iff`). -/
namespace Formula

universe u v
variable {α : Type u} {β : Type v} {entries : List (String × α)} {name : String} {value : α}

namespace Entries

/-- The name has an entry with this value, and no other one after it. -/
def IsLast (entries : List (String × α)) (name : String) (value : α) : Prop :=
  ∃ before later, entries = before ++ (name, value) :: later ∧ name ∉ later.map Prod.fst

theorem IsLast.mem (h : IsLast entries name value) : (name, value) ∈ entries := by
  obtain ⟨before, later, rfl, -⟩ := h
  exact List.mem_append_right _ List.mem_cons_self

theorem get?_reverse_eq_none_iff : get? name entries.reverse = none ↔ name ∉ entries.map Prod.fst := by
  rw [← Option.not_isSome_iff_eq_none, isSome_get?_iff, List.map_reverse, List.mem_reverse]

/-- The first entry for a name from the end of a list is the one with no other after it. -/
theorem get?_reverse_eq_some_iff : get? name entries.reverse = some value ↔ IsLast entries name value := by
  constructor
  · intro h
    induction entries using List.reverseRecOn with
    | nil => cases h
    | append_singleton entries last ih =>
      rw [List.reverse_concat, get?] at h
      split at h
      · next hname =>
        cases h
        exact ⟨entries, [], by rw [hname], List.not_mem_nil⟩
      · next hname =>
        obtain ⟨before, later, rfl, hlater⟩ := ih h
        exact ⟨before, later ++ [last], by rw [List.append_assoc, List.cons_append], by simp [hlater, hname]⟩
  · rintro ⟨before, later, rfl, hlater⟩
    rw [List.reverse_append, List.reverse_cons, List.append_assoc, get?_append, get?_reverse_eq_none_iff.mpr hlater,
      Option.none_or]
    simp [get?]

theorem exists_isLast_iff : (∃ value, IsLast entries name value) ↔ name ∈ entries.map Prod.fst := by
  simp only [← get?_reverse_eq_some_iff, ← Option.isSome_iff_exists, isSome_get?_iff, List.map_reverse,
    List.mem_reverse]

/-- What is found first in the order of the names is found at the least name. -/
theorem Ascending.findSome?_eq_some_iff (h : Ascending entries) {find : String × α → Option β} {found : β} :
    entries.findSome? find = some found ↔
      ∃ entry ∈ entries, find entry = some found ∧ ∀ other ∈ entries, other.1 < entry.1 → find other = none := by
  rw [List.findSome?_eq_some_iff]
  constructor
  · rintro ⟨before, entry, later, rfl, hfound, hbefore⟩
    refine ⟨entry, by simp, hfound, fun other hother hlt => ?_⟩
    obtain ⟨-, htail, -⟩ := List.pairwise_append.mp h
    have hlater := (List.pairwise_cons.mp htail).1
    rcases List.mem_append.mp hother with hother | hother
    · exact hbefore other hother
    · rcases List.mem_cons.mp hother with rfl | hother
      · exact absurd hlt (String.lt_irrefl _)
      · exact absurd hlt (String.lt_asymm (hlater other hother))
  · rintro ⟨entry, hentry, hfound, hleast⟩
    obtain ⟨before, later, rfl⟩ := List.append_of_mem hentry
    obtain ⟨-, -, hbefore⟩ := List.pairwise_append.mp h
    exact ⟨before, entry, later, rfl, hfound, fun other hother =>
      hleast other (List.mem_append_left _ hother) (hbefore other hother entry List.mem_cons_self)⟩

end Entries

namespace NameMap

theorem mem_entries_iff {m : NameMap α} : (name, value) ∈ m.entries ↔ m.get? name = some value :=
  ⟨fun h => Entries.get?_of_mem m.ascending h, Entries.mem_of_get?⟩

theorem get?_ofList (entries : List (String × α)) (name : String) :
    (ofList entries).get? name = Entries.get? name entries.reverse := by
  rw [ofList, get?_insertAll, get?_empty, Option.or_none]

/-- The entries of a map are those of the list that count. -/
theorem mem_entries_ofList_iff : (name, value) ∈ (ofList entries).entries ↔ Entries.IsLast entries name value := by
  rw [mem_entries_iff, get?_ofList, Entries.get?_reverse_eq_some_iff]

end NameMap

end Formula
