import Formula.Dialect.Load
import Formula.Proofs.ByteOrder
import Formula.Proofs.Entries
import Formula.Proofs.JsonValues

/-! Which JSON objects are function tables, and what is said of the others.

An object is a table if every name has an arity of at least one, given as an integer, and
no name is empty; then it has just these functions. Otherwise the members are looked through
in the order of their names, and the first one that is wrong is reported, for the first thing
that is wrong with it (`Dialect.fault?`). Of members with one name only the last has a say. -/
namespace Formula.Dialect
variable {table result : Dialect} {name : String} {value : Json} {members : List (String × Json)} {error : Error}

/-- What is wrong with a member of a function table: that it is no unsigned integer, or else that it is
zero, or else that it has no name. -/
def fault? (name : String) : Json → Option TableFault
  | .unsigned arity =>
    if arity = 0 then some (.zeroArity name)
    else if name = "" then some .emptyName
    else none
  | value => some (.badArity name value.text)

/-- The functions that members of an object give arities for. -/
def given (members : List (String × Json)) : List (String × Nat) :=
  members.filterMap fun (name, value) =>
    match value with
    | .unsigned arity => some (name, arity.toNat)
    | _ => none

/-! ### One member -/

theorem fault?_eq_none_iff :
    fault? name value = none ↔ name ≠ "" ∧ ∃ arity : UInt64, value = .unsigned arity ∧ 0 < arity := by
  cases value with
  | unsigned arity =>
    simp only [fault?, Json.unsigned.injEq, exists_eq_left', UInt64.pos_iff_ne_zero]
    split <;> simp_all
  | _ => simp [fault?]

theorem insertJson_unsigned (table : Dialect) (name : String) (arity : UInt64) (members : List (String × Json)) :
    table.insertJson ((name, .unsigned arity) :: members) =
      (table.insert name arity.toNat).2.bind fun () => (table.insert name arity.toNat).1.insertJson members := rfl

/-- A member that is wrong ends the reading. -/
theorem insertJson_of_fault {fault : TableFault} (h : fault? name value = some fault) :
    table.insertJson ((name, value) :: members) = .error (.table fault) := by
  cases value with
  | unsigned arity =>
    have hrefused : (table.insert name arity.toNat).2 = .error (.table fault) := by
      simp only [fault?] at h
      split at h
      · next harity =>
        cases h
        subst harity
        rfl
      · next harity =>
        rw [Option.ite_none_right_eq_some] at h
        obtain ⟨hname, h⟩ := h
        cases h
        have hne : arity.toNat ≠ 0 := fun h => harity (UInt64.toNat_inj.mp h)
        rw [insert, dif_neg hne, dif_pos hname]
    rw [insertJson_unsigned, hrefused]
    rfl
  | _ =>
    cases h
    rfl

/-- Any other is registered. -/
theorem insertJson_of_not_fault (table : Dialect) (members : List (String × Json)) (h : fault? name value = none) :
    ∃ arity : UInt64, value = .unsigned arity ∧ (table.insert name arity.toNat).2 = .ok () ∧
      table.insertJson ((name, value) :: members) = (table.insert name arity.toNat).1.insertJson members := by
  obtain ⟨hname, arity, rfl, harity⟩ := fault?_eq_none_iff.mp h
  have haccepted : (table.insert name arity.toNat).2 = .ok () :=
    insert_eq_ok_iff.mpr ⟨hname, UInt64.lt_iff_toNat_lt.mp harity⟩
  refine ⟨arity, rfl, haccepted, ?_⟩
  rw [insertJson_unsigned, haccepted]
  rfl

/-! ### All members -/

theorem insertJson_eq_error_iff :
    table.insertJson members = .error error ↔
      ∃ fault, members.findSome? (fun member => fault? member.1 member.2) = some fault ∧ error = .table fault := by
  induction members generalizing table with
  | nil => simp [insertJson]
  | cons member rest ih =>
    obtain ⟨name, value⟩ := member
    rw [List.findSome?_cons]
    cases hfault : fault? name value with
    | some fault =>
      rw [insertJson_of_fault hfault]
      simp [eq_comm]
    | none =>
      obtain ⟨arity, -, -, hrest⟩ := insertJson_of_not_fault table rest hfault
      rw [hrest]
      exact ih

theorem exists_insertJson_iff :
    (∃ result, table.insertJson members = .ok result) ↔ ∀ member ∈ members, fault? member.1 member.2 = none := by
  rw [← List.findSome?_eq_none_iff]
  cases hread : table.insertJson members with
  | ok result =>
    refine iff_of_true ⟨result, rfl⟩ (Option.eq_none_iff_forall_ne_some.mpr fun fault hfault => ?_)
    exact nomatch hread.symm.trans (insertJson_eq_error_iff.mpr ⟨fault, hfault, rfl⟩)
  | error error =>
    obtain ⟨fault, hfault, -⟩ := insertJson_eq_error_iff.mp hread
    exact iff_of_false (fun ⟨_, h⟩ => nomatch h) (fun h => nomatch hfault.symm.trans h)

/-- The table has the functions of the members, the later ones in place of the earlier ones. -/
theorem arity_insertJson (h : table.insertJson members = .ok result) (name : String) :
    result.arity name = (Entries.get? name (given members).reverse).or (table.arity name) := by
  induction members generalizing table with
  | nil =>
    cases h
    rfl
  | cons member rest ih =>
    obtain ⟨key, value⟩ := member
    have hfault := exists_insertJson_iff.mp ⟨result, h⟩ (key, value) List.mem_cons_self
    obtain ⟨arity, rfl, haccepted, hrest⟩ := insertJson_of_not_fault table rest hfault
    have hgiven : given ((key, .unsigned arity) :: rest) = (key, arity.toNat) :: given rest := rfl
    rw [ih (hrest ▸ h), arity_insert haccepted, hgiven, List.reverse_cons, Entries.get?_append, Option.or_assoc]
    simp only [Entries.get?]
    split <;> rfl

/-! ### The object -/

theorem mem_given_iff {arity : Nat} :
    (name, arity) ∈ given members ↔
      ∃ value : UInt64, (name, Json.unsigned value) ∈ members ∧ arity = value.toNat := by
  rw [given, List.mem_filterMap]
  constructor
  · rintro ⟨⟨key, value⟩, hmem, hvalue⟩
    cases value with
    | unsigned value =>
      cases hvalue
      exact ⟨value, hmem, rfl⟩
    | _ => cases hvalue
  · rintro ⟨value, hmem, rfl⟩
    exact ⟨_, hmem, rfl⟩

theorem ascending_given (h : Entries.Ascending members) : Entries.Ascending (given members) := by
  refine h.filterMap _ fun member other hlt entry hentry entry' hentry' => ?_
  have hname : ∀ {member : String × Json} {entry : String × Nat}, entry ∈ given [member] → entry.1 = member.1 := by
    intro member entry h
    obtain ⟨value, hmem, -⟩ := mem_given_iff.mp h
    exact congrArg Prod.fst (List.mem_singleton.mp hmem)
  rw [hname (List.mem_filterMap.mpr ⟨_, List.mem_cons_self, hentry⟩),
    hname (List.mem_filterMap.mpr ⟨_, List.mem_cons_self, hentry'⟩)]
  exact hlt

theorem arity_ofJson (h : ofJson (.object members) = .ok result) {arity : Nat} :
    result.arity name = some arity ↔
      ∃ value : UInt64, Entries.IsLast members name (.unsigned value) ∧ arity = value.toNat := by
  have hascending := (NameMap.ofList members).ascending
  rw [arity_insertJson h, arity_empty, Option.or_none, Entries.get?_reverse (ascending_given hascending)]
  simp only [← NameMap.mem_entries_ofList_iff, ← mem_given_iff]
  exact ⟨Entries.mem_of_get?, Entries.get?_of_mem (ascending_given hascending)⟩

/-- The error is about the least name whose member is wrong. -/
theorem ofJson_eq_error_iff :
    ofJson (.object members) = .error error ↔
      ∃ name value fault, Entries.IsLast members name value ∧ fault? name value = some fault ∧ error = .table fault ∧
        ∀ other value', Entries.IsLast members other value' → utf8 other < utf8 name → fault? other value' = none := by
  refine insertJson_eq_error_iff.trans ?_
  simp only [(NameMap.ofList members).ascending.findSome?_eq_some_iff, Prod.exists, Prod.forall,
    NameMap.mem_entries_ofList_iff, utf8_lt_utf8_iff]
  constructor
  · rintro ⟨fault, ⟨name, value, hlast, hfault, hleast⟩, herror⟩
    exact ⟨name, value, fault, hlast, hfault, herror, hleast⟩
  · rintro ⟨name, value, fault, hlast, hfault, herror, hleast⟩
    exact ⟨fault, ⟨name, value, hlast, hfault, hleast⟩, herror⟩

theorem load_result (explain : String → String) (text : String) : (load explain text).result = parse explain text := by
  unfold load
  split
  · next h => exact h.symm
  · next h => exact h.symm

/-- What is made of an object with these members. -/
structure Loads (members : List (String × Json)) (result : Except Error Dialect) : Prop where
  /-- It is a table exactly if every name that counts has an arity. -/
  exists_ok_iff : (∃ table, result = .ok table) ↔
    ∀ name value, Entries.IsLast members name value →
      name ≠ "" ∧ ∃ arity : UInt64, value = .unsigned arity ∧ 0 < arity
  arity_eq_some_iff : ∀ table, result = .ok table → ∀ name arity, table.arity name = some arity ↔
    ∃ value : UInt64, Entries.IsLast members name (.unsigned value) ∧ arity = value.toNat
  arity_eq_none_iff : ∀ table, result = .ok table → ∀ name, table.arity name = none ↔ name ∉ members.map Prod.fst
  /-- The error is about the first member that is wrong, by the bytes of the names. -/
  eq_error_iff : ∀ error, result = .error error ↔
    ∃ name value fault, Entries.IsLast members name value ∧ fault? name value = some fault ∧ error = .table fault ∧
      ∀ other value', Entries.IsLast members other value' → utf8 other < utf8 name → fault? other value' = none

theorem loads_ofJson (members : List (String × Json)) : Loads members (ofJson (.object members)) where
  exists_ok_iff := by
    refine exists_insertJson_iff.trans ?_
    simp only [Prod.forall, NameMap.mem_entries_ofList_iff, fault?_eq_none_iff]
  arity_eq_some_iff table h name arity := arity_ofJson h
  arity_eq_none_iff table h name := by
    have hall := exists_insertJson_iff.mp ⟨table, h⟩
    simp only [← Entries.exists_isLast_iff, not_exists, Option.eq_none_iff_forall_ne_some, Ne, arity_ofJson h]
    constructor
    · intro hnone value hlast
      obtain ⟨-, arity, rfl, -⟩ := fault?_eq_none_iff.mp (hall _ (NameMap.mem_entries_ofList_iff.mpr hlast))
      exact hnone _ arity ⟨hlast, rfl⟩
    · rintro hlast _ value ⟨hvalue, -⟩
      exact hlast _ hvalue
  eq_error_iff error := ofJson_eq_error_iff

/-- **A text is loaded as a whole or refused for its first fault.** What is read of a text is the value that is
written in it, and a member of an object has the arity whose digits are written behind its name. An object with an
arity of at least one for each name, and no empty name, is the table with these functions and no others; for any other
object the error is about the first member that is wrong. Other values are refused, and so are texts that are none. -/
theorem load_exact (explain : String → String) (text : String) :
    (∀ value, Json.parse? text = some value ↔ Json.Writes text value) ∧
    (∀ members, Json.Writes text (.object members) → Loads members (load explain text).result) ∧
    (∀ value, Json.Writes text value → (∀ members, value ≠ .object members) →
      (load explain text).result = .error (.table .notAnObject)) ∧
    ((∀ value, ¬Json.Writes text value) → (load explain text).result = .error (.table (.invalidJson (explain text)))) ∧
    ∀ depth literal value, Json.ValueText depth literal (.unsigned value) ↔
      Json.IsNumeral literal ∧ Nat.ofDigitChars 10 literal 0 = value.toNat := by
  refine ⟨fun value => Json.parse?_eq_some_iff, ?_⟩
  simp only [← Json.parse?_eq_some_iff, load_result, parse]
  refine ⟨fun members h => ?_, fun value h hvalue => ?_, fun h => ?_,
    fun depth literal value => Json.valueText_unsigned_iff⟩
  · rw [h]
    exact loads_ofJson members
  · rw [h]
    cases value with
    | object members => exact absurd rfl (hvalue members)
    | _ => rfl
  · rw [Option.eq_none_iff_forall_ne_some.mpr h]

section
open Json

/-- A member that gives an arity, with blanks anywhere between its parts. -/
theorem led_member_unsigned (depth : Nat) (front name gap behind literal : List Char) (value : UInt64)
    (hgaps : Blanks front ∧ Blanks gap ∧ Blanks behind) (hname : ∀ c ∈ name, ¬c < ' ' ∧ c ≠ '"' ∧ c ≠ '\\')
    (hliteral : IsNumeral literal ∧ Nat.ofDigitChars 10 literal 0 = value.toNat) :
    Led (MemberText (ValueText depth)) (front ++ ('"' :: (name ++ ['"']) ++ (gap ++ ':' :: (behind ++ literal))))
      (String.ofList name, .unsigned value) := by
  obtain ⟨hfront, hgap, hbehind⟩ := hgaps
  exact .gap hfront (.pair (stringText_of_plain hname) hgap (.gap hbehind (valueText_unsigned_iff.mpr hliteral)))

theorem writes_object {members : List (String × Json)} {text : String} {body : List Char}
    (h : Listed (MemberText (ValueText 126)) '}' body members) (htext : text.toList = '{' :: body) :
    Writes text (.object members) :=
  ⟨'{' :: body, [], by rw [htext, List.append_nil], .gap Blanks.nil (.inr (.object (.some h))), Blanks.nil⟩

theorem writes_repeated :
    Writes "\x7b \"max\":3,\"f\" : 10,\"max\":2\x7d"
      (.object [("max", .unsigned 3), ("f", .unsigned 10), ("max", .unsigned 2)]) := by
  have hthree := led_member_unsigned 126 [' '] ['m', 'a', 'x'] [] [] ['3'] 3 (by decide) (by simp) (by decide)
  have hten := led_member_unsigned 126 [] ['f'] [' '] [' '] ['1', '0'] 10 (by decide) (by simp) (by decide)
  have htwo := led_member_unsigned 126 [] ['m', 'a', 'x'] [] [] ['2'] 2 (by decide) (by simp) (by decide)
  exact writes_object (.cons hthree Blanks.nil (.cons hten Blanks.nil (.last htwo Blanks.nil))) (by simp)

theorem writes_unnamed : Writes "\x7b\"g\":0,\"\":2\x7d" (.object [("g", .unsigned 0), ("", .unsigned 2)]) := by
  have hzero := led_member_unsigned 126 [] ['g'] [] [] ['0'] 0 (by decide) (by simp) (by decide)
  have htwo := led_member_unsigned 126 [] [] [] [] ['2'] 2 (by decide) (by simp) (by decide)
  exact writes_object (.cons hzero Blanks.nil (.last htwo Blanks.nil)) (by simp)

end

/-- Of two arities for `max` the last one counts, a name that is empty is wrong before one that takes no argument, and
nothing is no value. -/
theorem load_exact_examples :
    let explain : String → String := fun _ => "EOF while parsing a value at line 1 column 0"
    (∃ table, (load explain "\x7b \"max\":3,\"f\" : 10,\"max\":2\x7d").result = .ok table ∧
      table.arity "max" = some 2 ∧ table.arity "f" = some 10 ∧ table.arity "g" = none) ∧
    (load explain "\x7b\"g\":0,\"\":2\x7d").result = .error (.table .emptyName) ∧
    (load explain "").result = .error (.table (.invalidJson "EOF while parsing a value at line 1 column 0")) := by
  intro explain
  refine ⟨?_, ?_, ?_⟩
  · have hloads := (load_exact explain _).2.1 _ writes_repeated
    obtain ⟨table, htable⟩ := hloads.exists_ok_iff.mpr <| by
      intro name value hlast
      have hmem := hlast.mem
      simp only [List.mem_cons, Prod.mk.injEq, List.not_mem_nil, or_false] at hmem
      rcases hmem with ⟨rfl, rfl⟩ | ⟨rfl, rfl⟩ | ⟨rfl, rfl⟩ <;> exact ⟨by decide, _, rfl, by decide⟩
    have harity := hloads.arity_eq_some_iff table htable
    refine ⟨table, htable, (harity "max" 2).mpr ⟨2, ?_, rfl⟩, (harity "f" 10).mpr ⟨10, ?_, rfl⟩,
      (hloads.arity_eq_none_iff table htable "g").mpr (by decide)⟩
    · exact ⟨[("max", .unsigned 3), ("f", .unsigned 10)], [], rfl, List.not_mem_nil⟩
    · exact ⟨[("max", .unsigned 3)], [("max", .unsigned 2)], rfl, by decide⟩
  · have hloads := (load_exact explain _).2.1 _ writes_unnamed
    have hlast : Entries.IsLast [("g", Json.unsigned 0), ("", .unsigned 2)] "" (.unsigned 2) :=
      ⟨[("g", .unsigned 0)], [], rfl, List.not_mem_nil⟩
    refine (hloads.eq_error_iff _).mpr ⟨"", .unsigned 2, .emptyName, hlast, rfl, rfl, fun other value' _ hbefore => ?_⟩
    -- No name is before the empty one.
    exact absurd (utf8_lt_utf8_iff.mp hbefore) (List.not_lt_nil _)
  · obtain ⟨hwrites, -, -, hnone, -⟩ := load_exact explain ""
    refine hnone fun value h => ?_
    have hempty : Json.parse? "" = none := by simp [Json.parse?, Json.Reader.value, Json.Reader.skip]
    cases hempty.symm.trans ((hwrites value).mpr h)

end Formula.Dialect
