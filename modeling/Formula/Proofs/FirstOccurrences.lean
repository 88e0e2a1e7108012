import Formula.Proofs.Display

/-! The names of an expression as a reading of its leaves.

The names are collected in one list, which goes through the operands of an operation one
after the other. Before every leaf the list holds the first occurrences in what was read so
far, and the leaf adds its name to both (`FirstOccurrences.occur`), so after the expression
it holds the first occurrences in all of it (`FirstOccurrences.collectNames`). What the list
began with stays in front of it, and of the names of the expression it gains those that it
did not have (`Expr.collectNames_eq_append`). -/
namespace Formula

/-- The members of a sequence, each once and in the order of their first occurrences. -/
structure FirstOccurrences (sequence listing : List String) : Prop where
  nodup : listing.Nodup
  mem_iff : ∀ name, name ∈ listing ↔ name ∈ sequence
  /-- What comes earlier in the listing occurs earlier in the sequence. -/
  ordered : listing.Pairwise fun a b => sequence.idxOf a < sequence.idxOf b

namespace FirstOccurrences
variable {sequence listing other seen : List String}

theorem nil : FirstOccurrences [] [] := ⟨.nil, fun _ => .rfl, .nil⟩

/-- What comes later in a sequence does not change the order of the names that have occurred. -/
theorem ordered_append (h : FirstOccurrences sequence listing) (more : List String) :
    listing.Pairwise fun a b => (sequence ++ more).idxOf a < (sequence ++ more).idxOf b := by
  refine h.ordered.imp_of_mem fun {a b} ha hb hlt => ?_
  rw [List.idxOf_append, List.idxOf_append, if_pos ((h.mem_iff a).mp ha), if_pos ((h.mem_iff b).mp hb)]
  exact hlt

theorem occur_again (h : FirstOccurrences sequence listing) {name : String} (hmem : name ∈ listing) :
    FirstOccurrences (sequence ++ [name]) listing where
  nodup := h.nodup
  mem_iff earlier := by
    rw [List.mem_append, List.mem_singleton, ← h.mem_iff]
    exact ⟨.inl, fun hearlier => hearlier.elim id fun heq => heq ▸ hmem⟩
  ordered := h.ordered_append [name]

theorem occur_first (h : FirstOccurrences sequence listing) {name : String} (hnew : name ∉ listing) :
    FirstOccurrences (sequence ++ [name]) (listing ++ [name]) where
  nodup := by
    refine List.nodup_append.mpr ⟨h.nodup, List.pairwise_singleton .., fun earlier hearlier last hlast => ?_⟩
    rw [List.mem_singleton.mp hlast]
    exact fun heq => hnew (heq ▸ hearlier)
  mem_iff earlier := by rw [List.mem_append, List.mem_append, h.mem_iff]
  ordered := by
    refine List.pairwise_append.mpr ⟨h.ordered_append [name], List.pairwise_singleton .., ?_⟩
    intro earlier hearlier last hlast
    -- What is listed occurs in the old sequence, and the new name only behind it.
    rw [h.mem_iff] at hnew hearlier
    rw [List.mem_singleton.mp hlast, List.idxOf_append, List.idxOf_append, if_pos hearlier, if_neg hnew]
    exact Nat.lt_add_left _ (List.idxOf_lt_length_of_mem hearlier)

/-- One more occurrence: the name comes last, unless it is listed for an occurrence before. -/
theorem occur (h : FirstOccurrences sequence listing) (name : String) :
    FirstOccurrences (sequence ++ [name]) (if name ∈ listing then listing else listing ++ [name]) := by
  split
  · next hmem => exact h.occur_again hmem
  · next hnew => exact h.occur_first hnew

/-- A sequence has one listing only. -/
theorem unique (h : FirstOccurrences sequence listing) (hother : FirstOccurrences sequence other) :
    listing = other := by
  have hperm : listing.Perm other :=
    (List.perm_ext_iff_of_nodup h.nodup hother.nodup).mpr fun name =>
      (h.mem_iff name).trans (hother.mem_iff name).symm
  exact hperm.eq_of_pairwise (fun _ _ _ _ hab hba => absurd hab (Nat.lt_asymm hba)) h.ordered hother.ordered

/-- Collecting the names of an expression reads its leaves. -/
theorem collectNames (h : FirstOccurrences sequence seen) (expr : Expr) :
    FirstOccurrences (sequence ++ expr.leafNames) (expr.collectNames seen) := by
  induction expr generalizing sequence seen with
  | number value =>
    rw [Expr.leafNames, List.append_nil]
    exact h
  | var name | const name => exact h.occur name
  | unary op operand ih => exact ih h
  | binary op left right ihl ihr =>
    rw [Expr.leafNames, ← List.append_assoc]
    exact ihr (ihl h)

end FirstOccurrences

namespace Expr
variable {name : String} {expr : Expr}

/-- The names at the leaves are those of the variables and the constants. -/
theorem mem_leafNames_iff : name ∈ expr.leafNames ↔ .var name ∈ expr.parts ∨ .const name ∈ expr.parts := by
  induction expr with
  | number value => simp [leafNames, parts]
  | var other | const other => simp [leafNames, parts]
  | unary op operand ih => simp [leafNames, parts, ih]
  | binary op left right ihl ihr =>
    simp only [leafNames, parts, List.mem_append, List.mem_cons, reduceCtorEq, false_or, ihl, ihr]
    exact or_or_or_comm

/-- What was seen before stays in front, and the names that were not seen follow it. -/
theorem collectNames_eq_append (seen : List String) (expr : Expr) :
    expr.collectNames seen = seen ++ expr.names.filter (· ∉ seen) := by
  induction expr generalizing seen with
  | number value => simp [names, collectNames]
  | var name | const name => by_cases hseen : name ∈ seen <;> simp [names, collectNames, hseen]
  | unary op operand ih => exact ih seen
  | binary op left right ihl ihr =>
    -- The names of the operation are themselves collected behind those of the left operand.
    have hnames : (binary op left right).names = left.names ++ right.names.filter (· ∉ left.names) :=
      ihr left.names
    have hright : right.names.filter (· ∉ seen ++ left.names.filter (· ∉ seen)) =
        (right.names.filter (· ∉ left.names)).filter (· ∉ seen) := by
      rw [List.filter_filter]
      refine List.filter_congr fun name _ => ?_
      by_cases hseen : name ∈ seen <;> simp [hseen]
    rw [collectNames, ihr, ihl, hnames, List.filter_append, hright, List.append_assoc]

theorem nodup_collectNames_iff {seen : List String} : (expr.collectNames seen).Nodup ↔ seen.Nodup := by
  have hnames : expr.names.Nodup := (FirstOccurrences.nil.collectNames expr).nodup
  rw [collectNames_eq_append, List.nodup_append]
  refine ⟨fun h => h.1, fun h => ⟨h, hnames.filter _, fun name hname other hother heq => ?_⟩⟩
  have hunseen : other ∉ seen := by simpa using (List.mem_filter.mp hother).2
  exact hunseen (heq ▸ hname)

/-- **The names are the first occurrences at the leaves**, and no other listing is: they have no repetition,
they are the names of all variables and constants, and one comes before another if it occurs first from
left to right. Collected behind names that were seen before, they leave those as they are and repeat none
of them: the ones that were not seen follow in the same order. -/
theorem names_list_first_occurrences (expr : Expr) :
    (∀ listing, FirstOccurrences expr.leafNames listing ↔ listing = expr.names) ∧
    (∀ name, name ∈ expr.names ↔ .var name ∈ expr.parts ∨ .const name ∈ expr.parts) ∧
    ∀ seen, expr.collectNames seen = seen ++ expr.names.filter (· ∉ seen) ∧
      ((expr.collectNames seen).Nodup ↔ seen.Nodup) := by
  have hnames : FirstOccurrences expr.leafNames expr.names := FirstOccurrences.nil.collectNames expr
  refine ⟨fun listing => ⟨fun h => h.unique hnames, fun h => h ▸ hnames⟩, fun name => ?_,
    fun seen => ⟨collectNames_eq_append seen expr, nodup_collectNames_iff⟩⟩
  rw [hnames.mem_iff, mem_leafNames_iff]

/-- A variable and a constant of one name are one name. -/
example : (Expr.binary .add (.const "e") (.binary .multiply (.var "x") (.var "e"))).names = ["e", "x"] := by decide

end Expr

end Formula
