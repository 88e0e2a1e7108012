import Formula.Proofs.JsonScalars

/-! A text is read as the value that is written in it, and as no other.

Items, members and values are read by readers that are made of one another, and each of them
is exact if its parts are. What a reader with brackets does is told once by its parts
(`leaves_items_iff`, `leaves_value_iff`). Values are read by recursion on how deep they may
nest, so that exactness goes by induction on the depth (`exact_value`). A text is read as the value
that it writes (`parse?_eq_some_iff`), hence it writes no other (`Writes.unique`). -/
namespace Formula.Json

namespace Reader
variable {α : Type} {cs rest text : List Char} {c close : Char} {json : Json} {depth : Nat} {item : Reader α}
  {part : List Char → α → Prop} {as : List α}

/-! ### Blanks -/

theorem exists_gap (cs : List Char) : ∃ gap, Blanks gap ∧ cs = gap ++ skip cs := by
  refine ⟨_, fun c hc => ?_, List.takeWhile_append_dropWhile.symm⟩
  have hblank := List.mem_takeWhile_imp hc
  simpa [blanks, or_assoc] using hblank

theorem skip_gap {gap : List Char} (hgap : Blanks gap) (hrest : ∀ c ∈ rest.head?, c ∉ blanks) :
    skip (gap ++ rest) = rest := by
  refine (span_append (fun c hc => ?_) fun c hc => ?_).2
  · simpa [blanks, or_assoc] using hgap c hc
  · simpa [blanks, and_assoc] using hrest c hc

theorem skip_gap_cons {gap : List Char} (hgap : Blanks gap) (hc : c ∉ blanks) :
    skip (gap ++ c :: rest) = c :: rest :=
  skip_gap hgap fun _ hd => Option.some.inj hd ▸ hc

/-- A number ends at the end of the text, be there blanks or not. -/
theorem endsNumber_of_blanks (h : Blanks cs) : EndsNumber cs := by
  have hall : ∀ c ∈ blanks, ¬c.isDigit ∧ c ≠ '.' ∧ c ≠ 'e' ∧ c ≠ 'E' := by simp [blanks]
  exact fun c hc => hall c (h c (List.mem_of_mem_head? hc))

theorem endsNumber_gap_cons {gap : List Char} (hgap : Blanks gap) (hc : c ∈ [',', ']', '}']) :
    EndsNumber (gap ++ c :: rest) := by
  cases gap with
  | nil =>
    have hall : ∀ c ∈ [',', ']', '}'], ¬c.isDigit ∧ c ≠ '.' ∧ c ≠ 'e' ∧ c ≠ 'E' := by simp
    exact fun d hd => Option.some.inj hd ▸ hall c hc
  | cons d gap => exact fun c hc => endsNumber_of_blanks hgap c hc

/-! ### Arrays and objects -/

/-- An item is followed by a comma and others, or else by the bracket. -/
theorem leaves_items_iff :
    Leaves (items item close cs) as rest ↔
      ∃ first afterFirst c afterMark, Leaves (item cs) first afterFirst ∧ skip afterFirst = c :: afterMark ∧
        if c = ',' then ∃ others, Leaves (items item close afterMark) others rest ∧ first :: others = as
        else c = close ∧ [first] = as ∧ afterMark = rest := by
  rw [items]
  simp only [Option.bind_eq_bind, leaves_bind_iff]
  constructor
  · rintro ⟨first, afterFirst, hfirst, h⟩
    split at h
    · exact absurd h leaves_none
    · next c afterMark hskip =>
      refine ⟨first, afterFirst, c, afterMark, hfirst, hskip, ?_⟩
      split at h
      · next hcomma =>
        rw [if_pos hcomma]
        simp only [leaves_bind_iff, leaves_some_iff, exists_prop] at h
        obtain ⟨others, left, hothers, rfl, rfl⟩ := h
        exact ⟨others, hothers, rfl⟩
      · next hcomma =>
        rw [if_neg hcomma]
        split at h
        · next hclose => exact ⟨hclose, leaves_some_iff.mp h⟩
        · exact absurd h leaves_none
  · rintro ⟨first, afterFirst, c, afterMark, hfirst, hskip, h⟩
    refine ⟨first, afterFirst, hfirst, ?_⟩
    split
    · next hskip' => cases hskip.symm.trans hskip'
    · next hskip' =>
      cases hskip.symm.trans hskip'
      by_cases hcomma : c = ','
      · rw [if_pos hcomma] at h ⊢
        obtain ⟨others, hothers, rfl⟩ := h
        simp only [leaves_bind_iff, leaves_some_iff, exists_prop]
        exact ⟨others, rest, hothers, rfl, rfl⟩
      · rw [if_neg hcomma] at h ⊢
        rw [if_pos h.1]
        exact leaves_some_iff.mpr h.2

theorem exact_items (hitem : Exact item (Led part) EndsNumber) (hclose : close ∈ [']', '}']) :
    Exact (items item close) (Listed part close) fun _ => True where
  sound {cs as rest} h := by
    induction cs using items.induct generalizing as with
    | case1 cs ih =>
      obtain ⟨first, afterFirst, c, afterMark, hfirst, hskip, h⟩ := leaves_items_iff.mp h
      obtain ⟨text, hcs, htext⟩ := hitem.sound hfirst
      obtain ⟨gap, hgap, hafterFirst⟩ := exists_gap afterFirst
      rw [hskip] at hafterFirst
      split at h
      · next hcomma =>
        obtain ⟨others, hothers, rfl⟩ := h
        obtain ⟨body, hbody, hlisted⟩ := ih afterFirst hfirst.1 c afterMark hskip hothers
        exact ⟨_, by simp [hcs, hafterFirst, hbody, hcomma], .cons htext hgap hlisted⟩
      · obtain ⟨rfl, rfl, rfl⟩ := h
        exact ⟨_, by simp [hcs, hafterFirst], .last htext hgap⟩
  complete {text as rest} h _ := by
    have hmarks : ∀ c ∈ [']', '}'], c ∉ blanks ∧ c ≠ ',' ∧ c ∈ [',', ']', '}'] := by simp [blanks]
    obtain ⟨hblank, hcomma, hmark⟩ := hmarks close hclose
    induction h with
    | @last text gap a h hgap =>
      refine leaves_items_iff.mpr ⟨a, gap ++ close :: rest, close, rest, ?_, skip_gap_cons hgap hblank, ?_⟩
      · rw [List.append_assoc, List.append_assoc]
        exact hitem.complete h (endsNumber_gap_cons hgap hmark)
      · rw [if_neg hcomma]
        exact ⟨rfl, rfl, rfl⟩
    | @cons text gap body a as h hgap hrest ih =>
      refine leaves_items_iff.mpr
        ⟨a, gap ++ ',' :: (body ++ rest), ',', body ++ rest, ?_, skip_gap_cons hgap (by decide), ?_⟩
      · rw [List.append_assoc, List.append_assoc]
        exact hitem.complete h (endsNumber_gap_cons hgap (by decide))
      · rw [if_pos rfl]
        exact ⟨as, ih, rfl⟩

theorem not_leaves_bracketed (hskip : skip cs = []) :
    ¬Leaves (bracketed item close cs) as rest := by
  unfold bracketed
  simp only
  split
  · exact leaves_none
  · next h => cases hskip.symm.trans h

theorem leaves_bracketed_iff {inside : List Char} (hskip : skip cs = c :: inside) :
    Leaves (bracketed item close cs) as rest ↔
      if c = close then [] = as ∧ inside = rest else Leaves (items item close cs) as rest := by
  unfold bracketed
  simp only
  split
  · next h => cases hskip.symm.trans h
  · next h =>
    cases hskip.symm.trans h
    split
    · exact leaves_some_iff
    · rfl

/-- A list of items is not taken for an empty one. -/
theorem Listed.begins (hbegins : BeginsNot (close :: blanks) part) (h : Listed part close text as) (rest : List Char) :
    ∃ first body, skip (text ++ rest) = first :: body ∧ first ≠ close := by
  have hskip : ∀ {led behind : List Char} {a : α}, Led part led a →
      ∃ first body, skip (led ++ behind) = first :: body ∧ first ≠ close := by
    rintro _ behind a ⟨hgap, h⟩
    obtain ⟨first, body, rfl, hfirst⟩ := hbegins h
    refine ⟨first, body ++ behind, ?_, List.ne_of_not_mem_cons hfirst⟩
    rw [List.append_assoc]
    exact skip_gap_cons hgap (List.not_mem_of_not_mem_cons hfirst)
  cases h with
  | last h hgap =>
    rw [List.append_assoc]
    exact hskip h
  | cons h hgap hrest =>
    rw [List.append_assoc]
    exact hskip h

theorem exact_bracketed (hitem : Exact item (Led part) EndsNumber) (hclose : close ∈ [']', '}'])
    (hbegins : BeginsNot (close :: blanks) part) :
    Exact (bracketed item close) (ItemsText part close) fun _ => True where
  sound {cs as rest} h := by
    cases hskip : skip cs with
    | nil => exact absurd h (not_leaves_bracketed hskip)
    | cons c inside =>
      rw [leaves_bracketed_iff hskip] at h
      split at h
      · next hc =>
        obtain ⟨rfl, rfl⟩ := h
        obtain ⟨gap, hgap, hcs⟩ := exists_gap cs
        rw [hskip, hc] at hcs
        exact ⟨gap ++ [close], hcs.trans (List.append_cons ..), .none hgap⟩
      · obtain ⟨text, hcs, htext⟩ := (exact_items hitem hclose).sound h
        exact ⟨text, hcs, .some htext⟩
  complete {text as rest} h _ := by
    cases h with
    | @none gap hgap =>
      have hblank : ∀ c ∈ [']', '}'], c ∉ blanks := by simp [blanks]
      rw [List.append_assoc, List.singleton_append, leaves_bracketed_iff (skip_gap_cons hgap (hblank close hclose)),
        if_pos rfl]
      exact ⟨rfl, rfl⟩
    | some h =>
      obtain ⟨first, body, hskip, hfirst⟩ := Listed.begins hbegins h rest
      rw [leaves_bracketed_iff hskip, if_neg hfirst]
      exact (exact_items hitem hclose).complete h trivial

/-! ### Members and values -/

theorem leaves_member_iff {value : Reader Json} {name : String} :
    Leaves (member value cs) (name, json) rest ↔
      ∃ afterName afterColon, Leaves (string (skip cs)) name afterName ∧ skip afterName = ':' :: afterColon ∧
        Leaves (value afterColon) json rest := by
  simp only [member, Option.bind_eq_bind, leaves_bind_iff]
  constructor
  · rintro ⟨name', afterName, hname, h⟩
    split at h
    · next afterColon hskip =>
      simp only [leaves_bind_iff, leaves_some_iff, exists_prop, Prod.mk.injEq] at h
      obtain ⟨json, left, hvalue, ⟨rfl, rfl⟩, rfl⟩ := h
      exact ⟨afterName, afterColon, hname, hskip, hvalue⟩
    · exact absurd h leaves_none
  · rintro ⟨afterName, afterColon, hname, hcolon, hvalue⟩
    refine ⟨name, afterName, hname, ?_⟩
    split
    · next hskip =>
      cases hcolon.symm.trans hskip
      simp only [leaves_bind_iff, leaves_some_iff, exists_prop]
      exact ⟨json, rest, hvalue, rfl, rfl⟩
    · next hskip => exact absurd hcolon (hskip _)

theorem exact_member {value : Reader Json} {part : List Char → Json → Prop}
    (hvalue : Exact value (Led part) EndsNumber) :
    Exact (member value) (Led (MemberText part)) EndsNumber where
  sound {cs a rest} h := by
    obtain ⟨name, json⟩ := a
    obtain ⟨afterName, afterColon, hname, hcolon, h⟩ := leaves_member_iff.mp h
    obtain ⟨gap, hgap, hcs⟩ := exists_gap cs
    obtain ⟨nameText, hskip, hnameText⟩ := exact_string.sound hname
    obtain ⟨gap', hgap', hafterName⟩ := exists_gap afterName
    obtain ⟨text, hafterColon, htext⟩ := hvalue.sound h
    refine ⟨gap ++ (nameText ++ (gap' ++ ':' :: text)), ?_, .gap hgap (.pair hnameText hgap' htext)⟩
    rw [hcs, hskip, hafterName, hcolon, hafterColon]
    simp
  complete {text a rest} h hends := by
    obtain @⟨gap, _, _, hgap, h⟩ := h
    obtain @⟨nameText, gap', text, name, json, hname, hgap', h⟩ := h
    obtain ⟨body, rfl⟩ := hname.head
    refine leaves_member_iff.mpr
      ⟨gap' ++ ':' :: (text ++ rest), text ++ rest, ?_, skip_gap_cons hgap' (by decide), ?_⟩
    · rw [List.append_assoc, List.cons_append, List.cons_append, skip_gap_cons hgap (by decide)]
      rw [List.append_assoc body, List.append_assoc gap', List.cons_append]
      exact exact_string.complete hname trivial
    · exact hvalue.complete h hends

theorem not_leaves_value (hskip : skip cs = []) : ¬Leaves (value depth cs) json rest := by
  unfold value
  simp only
  split
  · exact leaves_none
  · next h => cases hskip.symm.trans h

theorem leaves_value_iff {inside : List Char} (hskip : skip cs = c :: inside) :
    Leaves (value depth cs) json rest ↔
      (c ∉ ['[', '{'] ∧ Leaves (scalar c (skip cs)) json rest) ∨
      (c = '[' ∧ ∃ less items, depth = less + 1 ∧ Leaves (bracketed (value less) ']' inside) items rest ∧
        .array items = json) ∨
      (c = '{' ∧ ∃ less members, depth = less + 1 ∧
        Leaves (bracketed (member (value less)) '}' inside) members rest ∧ .object members = json) := by
  unfold value
  simp only
  split
  · next h => cases hskip.symm.trans h
  · next h =>
    cases hskip.symm.trans h
    simp only [Option.bind_eq_bind]
    split
    · simp [leaves_none]
    · simp [leaves_none]
    · simp [leaves_bind_iff, leaves_some_iff, and_comm]
    · simp [leaves_bind_iff, leaves_some_iff, and_comm]
    · next hzero hzero' hsucc hsucc' =>
      have harray : c ≠ '[' := by
        rintro rfl
        cases depth with
        | zero => exact hzero h rfl rfl HEq.rfl
        | succ => exact hsucc _ h rfl rfl HEq.rfl
      have hobject : c ≠ '{' := by
        rintro rfl
        cases depth with
        | zero => exact hzero' h rfl rfl HEq.rfl
        | succ => exact hsucc' _ h rfl rfl HEq.rfl
      simp [leaves_bind_iff, leaves_some_iff, harray, hobject]

theorem exact_arrays (h : Exact (value depth) (Led (ValueText depth)) EndsNumber) :
    Exact (bracketed (value depth) ']') (ItemsText (ValueText depth) ']') fun _ => True :=
  exact_bracketed h (by decide) (beginsNot_valueText depth)

theorem exact_objects (h : Exact (value depth) (Led (ValueText depth)) EndsNumber) :
    Exact (bracketed (member (value depth)) '}') (ItemsText (MemberText (ValueText depth)) '}') fun _ => True :=
  exact_bracketed (exact_member h) (by decide) (beginsNot_memberText _)

theorem leaves_value_of_scalar {gap : List Char} (hgap : Blanks gap) (h : ScalarText text json)
    (hends : EndsNumber rest) : Leaves (value depth (gap ++ (text ++ rest))) json rest := by
  obtain ⟨first, body, rfl, hfirst⟩ := beginsNot_scalarText h
  have hblank : first ∉ blanks := fun hmem => hfirst (List.mem_append_left _ hmem)
  have hopen : first ∉ ['[', '{'] := by
    have hall : ∀ c ∈ ['[', '{'], c ∈ blanks ++ brackets := by simp [brackets]
    exact fun hmem => hfirst (hall first hmem)
  rw [List.cons_append, leaves_value_iff (skip_gap_cons hgap hblank), skip_gap_cons hgap hblank]
  exact .inl ⟨hopen, scalar_complete h rfl hends⟩

/-- Values are read as they are written if those inside them are, which nest less deep. -/
theorem exact_value_of_less (hless : ∀ less, depth = less + 1 → Exact (value less) (Led (ValueText less)) EndsNumber) :
    Exact (value depth) (Led (ValueText depth)) EndsNumber where
  sound {cs json rest} h := by
    obtain ⟨gap, hgap, hcs⟩ := exists_gap cs
    cases hskip : skip cs with
    | nil => exact absurd h (not_leaves_value hskip)
    | cons c inside =>
      rcases (leaves_value_iff hskip).mp h with ⟨-, hread⟩ | ⟨rfl, less, items, rfl, hread, rfl⟩ |
          ⟨rfl, less, members, rfl, hread, rfl⟩
      · obtain ⟨text, htext, hscalar⟩ := scalar_sound hread
        exact ⟨gap ++ text, by rw [hcs, htext, List.append_assoc], .gap hgap (.scalar hscalar)⟩
      · obtain ⟨text, rfl, hitems⟩ := (exact_arrays (hless less rfl)).sound hread
        exact ⟨gap ++ '[' :: text, by rw [hcs, hskip]; simp, .gap hgap (.inr (.array hitems))⟩
      · obtain ⟨text, rfl, hmembers⟩ := (exact_objects (hless less rfl)).sound hread
        exact ⟨gap ++ '{' :: text, by rw [hcs, hskip]; simp, .gap hgap (.inr (.object hmembers))⟩
  complete {text json rest} h hends := by
    obtain @⟨gap, text, _, hgap, h⟩ := h
    rw [List.append_assoc]
    cases depth with
    | zero => exact leaves_value_of_scalar hgap h hends
    | succ less =>
      rcases h with h | h
      · exact leaves_value_of_scalar hgap h hends
      cases h with
      | array h =>
        rw [List.cons_append, leaves_value_iff (skip_gap_cons hgap (by decide))]
        exact .inr (.inl ⟨rfl, less, _, rfl, (exact_arrays (hless less rfl)).complete h trivial, rfl⟩)
      | object h =>
        rw [List.cons_append, leaves_value_iff (skip_gap_cons hgap (by decide))]
        exact .inr (.inr ⟨rfl, less, _, rfl, (exact_objects (hless less rfl)).complete h trivial, rfl⟩)

theorem exact_value (depth : Nat) : Exact (value depth) (Led (ValueText depth)) EndsNumber := by
  induction depth with
  | zero => exact exact_value_of_less fun less h => nomatch h
  | succ depth ih => exact exact_value_of_less fun less h => Nat.succ.inj h ▸ ih

end Reader

open Reader

/-- **A text is read as the value that is written in it**, and refused if there is none. -/
theorem parse?_eq_some_iff {text : String} {json : Json} : parse? text = some json ↔ Writes text json := by
  simp only [parse?, Option.bind_eq_bind, Option.bind_eq_some_iff, Prod.exists]
  constructor
  · rintro ⟨json, left, hread, h⟩
    split at h
    · next hskip =>
      cases h
      obtain ⟨body, htext, hbody⟩ := (exact_value maxDepth).sound ⟨left.2, hread⟩
      obtain ⟨gap, hgap, hleft⟩ := exists_gap left.1
      rw [hskip, List.append_nil] at hleft
      exact ⟨body, gap, hleft ▸ htext, hbody, hgap⟩
    · cases h
  · rintro ⟨body, gap, htext, hbody, hgap⟩
    have hread := (exact_value maxDepth).complete hbody (endsNumber_of_blanks hgap)
    rw [← htext] at hread
    obtain ⟨hbound, hread⟩ := hread
    have hskip : skip (gap ++ []) = [] := skip_gap hgap fun _ h => nomatch h
    rw [List.append_nil] at hskip
    exact ⟨json, _, hread, if_pos hskip⟩

/-- No text writes two values. -/
theorem Writes.unique {text : String} {json other : Json} (h : Writes text json) (h' : Writes text other) :
    json = other :=
  Option.some.inj ((parse?_eq_some_iff.mpr h).symm.trans (parse?_eq_some_iff.mpr h'))

end Formula.Json
