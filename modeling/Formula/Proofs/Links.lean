import Mathlib.Logic.Relation
import Formula.Predicate

/-! What an id of a predicate store stands for.

A store is built by calls that hand out one id each, and a predicate may join any ids that
were handed out before it. So the links from a predicate to its members lead to smaller ids
(`PredicateStore.member_lt`), and a test that looks the members up among all predicates comes to
an end: it nests no deeper than the id is great, and answers what `accepts` does
(`PredicateStore.testWithin_eq`). It finds a kind if and only if a chain of links ends at that
kind. What is added later is linked to by nothing that is there already, so it changes
no answer about an id that was handed out before. -/
namespace Formula.PredicateStore

/-- How a store grows, and the ids that are handed out, in their order. -/
inductive Grown (store : PredicateStore) (ids : List PredicateId) : PredicateStore → List PredicateId → Prop where
  | refl : Grown store ids store ids
  | terminal {later : PredicateStore} {handed : List PredicateId} (h : Grown store ids later handed)
    (kind : TokenKind) : Grown store ids (later.terminal kind).1 (handed ++ [(later.terminal kind).2])
  | anyOf {later : PredicateStore} {handed : List PredicateId} (h : Grown store ids later handed)
    (members : List PredicateId) (hmembers : ∀ member ∈ members, member ∈ handed) :
    Grown store ids (later.anyOf members).1 (handed ++ [(later.anyOf members).2])

/-- A store that began empty. -/
abbrev Built (store : PredicateStore) (ids : List PredicateId) : Prop := Grown empty [] store ids

/-- The predicate `id` joins others, and `member` is among them. -/
def Link (store : PredicateStore) (id member : PredicateId) : Prop :=
  ∃ members, store.get? id = some (.anyOf members) ∧ member ∈ members

/-- A chain of links from `id` ends at a predicate that matches just `kind`. -/
def LeadsTo (store : PredicateStore) (id : PredicateId) (kind : TokenKind) : Prop :=
  ∃ leaf, Relation.ReflTransGen store.Link id leaf ∧ store.get? leaf = some (.terminal kind)

/-- The test that looks members up among all predicates, old and new, and stops at the first member that
matches. It has no answer if it meets an id that is not there, or if its tests nest deeper than `depth`. -/
def testWithin (store : PredicateStore) (kind : TokenKind) : Nat → PredicateId → Option Bool
  | 0, _ => none
  | depth + 1, id =>
    match store.get? id with
    | none => none
    | some (.terminal expected) => some (expected == kind)
    | some (.anyOf members) => members.anyM (store.testWithin kind depth)

variable {store later : PredicateStore} {ids handed : List PredicateId} {id : PredicateId} {kind : TokenKind}
  {members : List PredicateId}

/-! ### Looking up -/

theorem getIn_isSome_iff {predicates : List Predicate} :
    (getIn id predicates).isSome ↔ id.index < predicates.length := by
  induction predicates with
  | nil => simp [getIn]
  | cons newest older ih =>
    simp only [getIn, List.length_cons]
    split
    · next hnewest => simp [hnewest]
    · next holder =>
      rw [ih]
      omega

theorem get?_isSome_iff : (store.get? id).isSome ↔ id.index < store.size := getIn_isSome_iff

theorem lt_size_of_get? {predicate : Predicate} (h : store.get? id = some predicate) : id.index < store.size :=
  get?_isSome_iff.mp (by rw [h]; rfl)

/-- What is there after an addition is the new predicate or was there before. -/
theorem get?_add_cases {predicate added : Predicate} (h : (store.add added).1.get? id = some predicate) :
    (id = ⟨store.size⟩ ∧ predicate = added) ∨ (id.index < store.size ∧ store.get? id = some predicate) := by
  have hsize : id.index < store.size + 1 := lt_size_of_get? h
  by_cases hold : id.index < store.size
  · rw [get?_add store added hold] at h
    exact .inr ⟨hold, h⟩
  · have hindex : id.index = store.size := by omega
    obtain rfl : id = ⟨store.size⟩ := congrArg PredicateId.mk hindex
    rw [get?_add_self] at h
    exact .inl ⟨rfl, (Option.some.inj h).symm⟩

theorem acceptsIn_of_terminal {predicates : List Predicate} {expected : TokenKind}
    (h : getIn id predicates = some (.terminal expected)) : acceptsIn kind predicates id = (expected == kind) := by
  induction predicates with
  | nil => cases h
  | cons newest older ih =>
    simp only [getIn, acceptsIn] at h ⊢
    split at h
    · next hnewest =>
      obtain rfl := Option.some.inj h
      rw [if_pos hnewest]
    · next holder =>
      rw [if_neg holder]
      exact ih h

theorem acceptsIn_of_none {predicates : List Predicate} (h : getIn id predicates = none) :
    acceptsIn kind predicates id = false := by
  induction predicates with
  | nil => rfl
  | cons newest older ih =>
    simp only [getIn, acceptsIn] at h ⊢
    split at h
    · cases h
    · next holder =>
      rw [if_neg holder]
      exact ih h

/-- An addition changes no answer about members that were there before. -/
theorem any_accepts_add (added : Predicate) (hmembers : ∀ member ∈ members, member.index < store.size) :
    members.any (fun member => (store.add added).1.accepts member kind) =
      members.any fun member => store.accepts member kind := by
  rw [Bool.eq_iff_iff, List.any_eq_true, List.any_eq_true]
  refine exists_congr fun member => and_congr_right fun hmember => ?_
  rw [accepts_add store added (hmembers member hmember)]

/-- A predicate that joins older ones matches what one of them matches in the whole store. -/
theorem acceptsIn_of_anyOf {predicates : List Predicate} (h : getIn id predicates = some (.anyOf members))
    (hmembers : ∀ member ∈ members, member.index < id.index) :
    acceptsIn kind predicates id = members.any fun member => acceptsIn kind predicates member := by
  induction predicates with
  | nil => cases h
  | cons newest older ih =>
    have hid : id.index < older.length + 1 := getIn_isSome_iff.mp (by rw [h]; rfl)
    have hadd : members.any (fun member => acceptsIn kind (newest :: older) member) =
        members.any fun member => acceptsIn kind older member :=
      any_accepts_add newest fun member hmember =>
        Nat.lt_of_lt_of_le (hmembers member hmember) (Nat.le_of_lt_succ hid)
    refine Eq.trans ?_ hadd.symm
    simp only [getIn, acceptsIn] at h ⊢
    split at h
    · next hnewest =>
      obtain rfl := Option.some.inj h
      rw [if_pos hnewest]
    · next holder =>
      rw [if_neg holder]
      exact ih h

/-! ### Stores that began empty -/

/-- The ids are handed out by counting. -/
theorem ids_eq_range (h : Built store ids) : ids = (List.range store.size).map PredicateId.mk := by
  induction h with
  | refl => rfl
  | @terminal later handed _ kind ih =>
    show handed ++ [⟨later.size⟩] = (List.range (later.size + 1)).map PredicateId.mk
    rw [List.range_succ, List.map_append, ← ih, List.map_singleton]
  | @anyOf later handed _ members _ ih =>
    show handed ++ [⟨later.size⟩] = (List.range (later.size + 1)).map PredicateId.mk
    rw [List.range_succ, List.map_append, ← ih, List.map_singleton]

theorem mem_ids_iff (h : Built store ids) : id ∈ ids ↔ id.index < store.size := by
  rw [ids_eq_range h, List.mem_map]
  constructor
  · rintro ⟨index, hindex, rfl⟩
    exact List.mem_range.mp hindex
  · intro hindex
    exact ⟨id.index, List.mem_range.mpr hindex, rfl⟩

/-- Links lead to smaller ids. -/
theorem member_lt (h : Built store ids) (hget : store.get? id = some (.anyOf members)) :
    ∀ member ∈ members, member.index < id.index := by
  induction h with
  | refl => cases hget
  | terminal hlater _ ih =>
    rcases get?_add_cases hget with ⟨-, hpredicate⟩ | ⟨-, hget⟩
    · cases hpredicate
    · exact ih hget
  | anyOf hlater joined hjoined ih =>
    rcases get?_add_cases hget with ⟨rfl, hpredicate⟩ | ⟨-, hget⟩
    · cases hpredicate
      intro member hmember
      exact (mem_ids_iff hlater).mp (hjoined member hmember)
    · exact ih hget

/-- The links of a store that began empty lead to what was there before, so that the test is the same whether
members are looked up among older predicates or among all. -/
theorem accepts_of_anyOf (h : Built store ids) (hget : store.get? id = some (.anyOf members)) :
    store.accepts id kind = members.any fun member => store.accepts member kind :=
  acceptsIn_of_anyOf hget (member_lt h hget)

/-! ### The test -/

/-- A search that stops at the first match, with a test that has the same answers. -/
theorem anyM_congr {test other : PredicateId → Option Bool} (h : ∀ member ∈ members, test member = other member) :
    members.anyM test = members.anyM other := by
  induction members with
  | nil => rfl
  | cons member rest ih =>
    rw [List.anyM_cons, List.anyM_cons, h member List.mem_cons_self,
      ih fun member hmember => h member (List.mem_cons_of_mem _ hmember)]

/-- The test ends for every id that was handed out, and nests no deeper than by one for each smaller id. -/
theorem testWithin_eq (h : Built store ids) (hid : id ∈ ids) {depth : Nat} (hdepth : id.index < depth) :
    store.testWithin kind depth id = some (store.accepts id kind) := by
  induction depth generalizing id with
  | zero => cases hdepth
  | succ depth ih =>
    obtain ⟨predicate, hget⟩ := Option.isSome_iff_exists.mp (get?_isSome_iff.mpr ((mem_ids_iff h).mp hid))
    simp only [testWithin, hget]
    cases predicate with
    | terminal expected => exact congrArg some (acceptsIn_of_terminal hget).symm
    | anyOf members =>
      have hmembers : ∀ member ∈ members, store.testWithin kind depth member = some (store.accepts member kind) := by
        intro member hmember
        have hlt := member_lt h hget member hmember
        have hsize := lt_size_of_get? hget
        exact ih ((mem_ids_iff h).mpr (Nat.lt_trans hlt hsize)) (by omega)
      rw [accepts_of_anyOf h hget]
      exact (anyM_congr hmembers).trans List.anyM_pure

/-- The test finds a kind if and only if a chain of links ends at it. -/
theorem accepts_iff_leadsTo (h : Built store ids) : store.accepts id kind ↔ store.LeadsTo id kind := by
  constructor
  · intro haccepts
    induction hindex : id.index using Nat.strongRecOn generalizing id with
    | ind index ih =>
      subst hindex
      cases hget : store.get? id with
      | none =>
        rw [accepts, acceptsIn_of_none hget] at haccepts
        cases haccepts
      | some predicate =>
        cases predicate with
        | terminal expected =>
          rw [accepts, acceptsIn_of_terminal hget, beq_iff_eq] at haccepts
          exact ⟨id, .refl, haccepts ▸ hget⟩
        | anyOf members =>
          rw [accepts_of_anyOf h hget, List.any_eq_true] at haccepts
          obtain ⟨member, hmember, haccepts⟩ := haccepts
          obtain ⟨leaf, hchain, hleaf⟩ := ih member.index (member_lt h hget member hmember) haccepts rfl
          exact ⟨leaf, .head ⟨members, hget, hmember⟩ hchain, hleaf⟩
  · rintro ⟨leaf, hchain, hleaf⟩
    induction hchain using Relation.ReflTransGen.head_induction_on with
    | refl => rw [accepts, acceptsIn_of_terminal hleaf, beq_self_eq_true]
    | head hlink _ ih =>
      obtain ⟨members, hget, hmember⟩ := hlink
      rw [accepts_of_anyOf h hget, List.any_eq_true]
      exact ⟨_, hmember, ih⟩

theorem mem_kinds_iff : kind ∈ store.kinds id ↔ store.accepts id kind := by
  rw [kinds, List.mem_filter]
  exact and_iff_right kind.mem_all

theorem kinds_congr {other : PredicateId} (h : ∀ kind, store.accepts id kind ↔ later.accepts other kind) :
    store.kinds id = later.kinds other :=
  List.filter_congr fun kind _ => Bool.eq_iff_iff.mpr (h kind)

/-- The kinds of a predicate that joins others are those of its members together. -/
theorem kinds_of_anyOf (h : Built store ids) (hget : store.get? id = some (.anyOf members)) :
    store.kinds id = TokenKind.all.filter fun kind => ∃ member ∈ members, kind ∈ store.kinds member := by
  refine List.filter_congr fun kind _ => ?_
  rw [accepts_of_anyOf h hget, Bool.eq_iff_iff, List.any_eq_true, decide_eq_true_iff]
  simp only [mem_kinds_iff]

/-- **A test finds what its id leads to.** In a store that began empty the links lead to smaller ids, so that the
test of a handed-out id comes to an end, nested no deeper than the id is great. It matches a token if and
only if a chain of links ends at the token's kind; the kinds that it matches are listed once each and in their
order, for a predicate that joins others all kinds of its members, and it does not matter by
which chains a kind is reached. -/
theorem accepts_by_links (h : Built store ids) :
    (∀ id members, store.get? id = some (.anyOf members) → ∀ member ∈ members, member.index < id.index) ∧
    (∀ id ∈ ids,
      (∀ kind depth, id.index < depth → store.testWithin kind depth id = some (store.accepts id kind)) ∧
      (∀ token : Token, store.accepts id token.kind ↔ store.LeadsTo id token.kind) ∧
      (store.kinds id).Sublist TokenKind.all ∧ (store.kinds id).Nodup ∧
      ∀ kind, kind ∈ store.kinds id ↔ store.accepts id kind) ∧
    (∀ id members, store.get? id = some (.anyOf members) →
      store.kinds id = TokenKind.all.filter fun kind => ∃ member ∈ members, kind ∈ store.kinds member) ∧
    (∀ id, store.get? id = some (.anyOf []) → store.kinds id = []) ∧
    ∀ id other, (∀ kind, store.LeadsTo id kind ↔ store.LeadsTo other kind) → store.kinds id = store.kinds other := by
  refine ⟨fun id members hget => member_lt h hget, fun id hid => ⟨fun kind depth hdepth => testWithin_eq h hid hdepth,
    fun token => accepts_iff_leadsTo h, List.filter_sublist, ?_, fun kind => mem_kinds_iff⟩,
    fun id members hget => kinds_of_anyOf h hget, fun id hget => ?_, fun id other hleads => ?_⟩
  · have hall : TokenKind.all.Nodup := by decide
    exact hall.filter _
  · rw [kinds_of_anyOf h hget]
    simp
  · refine kinds_congr fun kind => ?_
    rw [accepts_iff_leadsTo h, accepts_iff_leadsTo h]
    exact hleads kind

/-- A predicate that joins a number twice and another predicate, which joins variables. -/
theorem accepts_by_links_nested :
    let store := ((((empty.terminal .var).1.terminal .number).1.anyOf [⟨0⟩]).1.anyOf [⟨1⟩, ⟨2⟩, ⟨1⟩]).1
    store.testWithin .var 4 ⟨3⟩ = some true ∧ store.LeadsTo ⟨3⟩ .var ∧ store.kinds ⟨3⟩ = [.var, .number] := by
  have hleaves : Built _ _ := (Grown.refl.terminal .var).terminal .number
  have hbuilt := (hleaves.anyOf [⟨0⟩] (by decide)).anyOf [⟨1⟩, ⟨2⟩, ⟨1⟩] (by decide)
  obtain ⟨-, hids, hkinds, -, -⟩ := accepts_by_links hbuilt
  obtain ⟨htest, hleads, -⟩ := hids ⟨3⟩ (by decide)
  exact ⟨htest .var 4 (by decide), (hleads (.var "x")).mp rfl, hkinds ⟨3⟩ [⟨1⟩, ⟨2⟩, ⟨1⟩] rfl⟩

/-! ### Growing -/

theorem Grown.trans {latest : PredicateStore} {all : List PredicateId} (h : Grown store ids later handed)
    (hlater : Grown later handed latest all) : Grown store ids latest all := by
  induction hlater with
  | refl => exact h
  | terminal _ kind ih => exact ih.terminal kind
  | anyOf _ members hmembers ih => exact ih.anyOf members hmembers

theorem Grown.ids_prefix (h : Grown store ids later handed) : ids <+: handed := by
  induction h with
  | refl => exact List.prefix_refl ids
  | terminal _ kind ih => exact ih.trans (List.prefix_append ..)
  | anyOf _ members _ ih => exact ih.trans (List.prefix_append ..)

/-- Two stores tell the same about an id, whichever way it is asked for. -/
structure SameAt (store later : PredicateStore) (id : PredicateId) : Prop where
  get? : later.get? id = store.get? id
  accepts : ∀ token : Token, later.accepts id token.kind = store.accepts id token.kind
  kinds : later.kinds id = store.kinds id
  testWithin : ∀ kind depth, later.testWithin kind depth id = store.testWithin kind depth id

theorem testWithin_add (h : Built store ids) (added : Predicate) (hid : id.index < store.size) (depth : Nat) :
    (store.add added).1.testWithin kind depth id = store.testWithin kind depth id := by
  induction depth generalizing id with
  | zero => rfl
  | succ depth ih =>
    simp only [testWithin, get?_add store added hid]
    cases hget : store.get? id with
    | none => rfl
    | some predicate =>
      cases predicate with
      | terminal expected => rfl
      | anyOf members =>
        -- Everything that the test reaches from here has a smaller id, so it is old as well.
        exact anyM_congr fun member hmember => ih (Nat.lt_trans (member_lt h hget member hmember) hid)

theorem sameAt_add (h : Built store ids) (added : Predicate) (hid : id ∈ ids) :
    SameAt store (store.add added).1 id := by
  have hsize := (mem_ids_iff h).mp hid
  have haccepts := accepts_add store added hsize
  exact ⟨get?_add store added hsize, fun token => haccepts token.kind,
    kinds_congr fun kind => by rw [haccepts kind], fun kind depth => testWithin_add h added hsize depth⟩

theorem SameAt.trans {latest : PredicateStore} (h : SameAt store later id) (hlater : SameAt later latest id) :
    SameAt store latest id :=
  ⟨hlater.get?.trans h.get?, fun token => (hlater.accepts token).trans (h.accepts token),
    hlater.kinds.trans h.kinds, fun kind depth => (hlater.testWithin kind depth).trans (h.testWithin kind depth)⟩

theorem Grown.sameAt (h : Built store ids) (hlater : Grown store ids later handed) (hid : id ∈ ids) :
    SameAt store later id := by
  induction hlater with
  | refl => exact ⟨rfl, fun _ => rfl, rfl, fun _ _ => rfl⟩
  | terminal hlater kind ih => exact ih.trans (sameAt_add (h.trans hlater) _ (hlater.ids_prefix.subset hid))
  | anyOf hlater members _ ih => exact ih.trans (sameAt_add (h.trans hlater) _ (hlater.ids_prefix.subset hid))

/-- **An id means for ever what it meant when it was handed out.** A call hands out the size of the store as the new
id, and whatever is added after it, an older id stands for the same predicate, matches the same tokens
and lists the same kinds. -/
theorem old_ids_keep_meaning (h : Built store ids) :
    ids = (List.range store.size).map PredicateId.mk ∧
    (∀ kind, (store.terminal kind).2 = ⟨store.size⟩) ∧ (∀ members, (store.anyOf members).2 = ⟨store.size⟩) ∧
    ∀ later handed, Grown store ids later handed → ids <+: handed ∧ ∀ id ∈ ids, SameAt store later id :=
  ⟨ids_eq_range h, fun _ => rfl, fun _ => rfl,
    fun _ _ hlater => ⟨hlater.ids_prefix, fun _ hid => h.sameAt hlater hid⟩⟩

/-- A predicate joins variables alone; it matches no number either once there is one for both. -/
theorem old_ids_keep_meaning_joined :
    let store := ((empty.terminal .var).1.anyOf [⟨0⟩]).1
    let later := ((store.terminal .number).1.anyOf [⟨1⟩, ⟨2⟩]).1
    (store.terminal .number).2 = ⟨2⟩ ∧ later.get? ⟨1⟩ = store.get? ⟨1⟩ ∧
    later.accepts ⟨1⟩ .number = store.accepts ⟨1⟩ .number ∧ later.kinds ⟨1⟩ = store.kinds ⟨1⟩ := by
  have hvar : Built _ _ := Grown.refl.terminal .var
  have hbuilt := hvar.anyOf [⟨0⟩] (by decide)
  obtain ⟨-, hterminal, -, hgrown⟩ := old_ids_keep_meaning hbuilt
  obtain ⟨-, hids⟩ := hgrown _ _ (.anyOf (.terminal .refl .number) [⟨1⟩, ⟨2⟩] (by decide))
  have hsame := hids ⟨1⟩ (by decide)
  exact ⟨hterminal .number, hsame.get?, hsame.accepts (.number "1"), hsame.kinds⟩

end Formula.PredicateStore
