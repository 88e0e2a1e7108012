import Formula.Proofs.Completion
import Formula.Proofs.Noninterference
import Formula.Proofs.Verdicts

/-! An expression in brackets stands where a value may stand.

What is open around a stretch of tokens plays no part in it, as long as the stretch
closes no bracket but its own: a run goes on in the same way `inside` other brackets
(`Nesting.run_inside`). So an accepted list in brackets takes a scan back to where it
was, as a single value does, except that more tokens are taken and that the last one is
a right bracket. The difference only shows in errors behind the place, and only in
positions, and in one state right behind it (`Nesting.Behind.run_finish`).
Therefore a value may be replaced by an expression in brackets anywhere
(`Scanner.group_in_place_of_leaf`). -/
namespace Formula

namespace Nesting
variable {table : Dialect} {token : Token} {tokens : List Token} {n m next : Nesting}

/-! ### Other brackets around a run -/

/-- The same nesting inside other brackets, with so many tokens before it. -/
def inside (outer : List Opening) (ahead : Nat) (n : Nesting) : Nesting :=
  { n with position := ahead + n.position, openings := n.openings ++ outer }

theorem Taken.inside (h : Taken table token n next) (outer : List Opening) (ahead : Nat) :
    Taken table token (n.inside outer ahead) (next.inside outer ahead) := by
  have hopen : ∀ {opening rest}, n.openings = opening :: rest →
      (n.inside outer ahead).openings = opening :: (rest ++ outer) := fun h => congrArg (· ++ outer) h
  cases h with
  | name hkind harity => exact .name hkind harity
  | opens hkind => exact .opens hkind
  | closesGroup hkind hgroup hcallee => exact .closesGroup hkind (hopen hgroup) hcallee
  | closesCall hkind hcall hcallee => exact .closesCall hkind (hopen hcall) hcallee
  | separates hkind hcall hcallee => exact .separates hkind (hopen hcall) hcallee
  | plain hkind hcallee => exact .plain hkind hcallee

theorem run_inside (h : n.Announced) (hrun : n.run table tokens = .ok m) (outer : List Opening) (ahead : Nat) :
    (n.inside outer ahead).run table tokens = .ok (m.inside outer ahead) := by
  induction tokens generalizing n with
  | nil =>
    cases hrun
    rfl
  | cons token rest ih =>
    obtain ⟨next, hadmits, htaken, hrest⟩ := exists_taken_of_run h hrun
    have hannounced : (n.inside outer ahead).Announced := h
    rw [run_of_taken hannounced hadmits (htaken.inside outer ahead)]
    exact ih htaken.announced hrest

/-! ### A whole expression in brackets -/

theorem exists_run_of_verdict (h : verdict table tokens = .ok ()) :
    ∃ m, initial.run table tokens = .ok m ∧ m.openings = [] := by
  obtain ⟨m, hrun, hfinish⟩ := bind_eq_ok_iff.mp h
  exact ⟨m, hrun, ((finish_eq_ok_iff m).mp hfinish).1⟩

/-- An accepted list in brackets leaves behind what was there before, but for the tokens taken. -/
theorem run_group (h : n.Announced) (hadmits : n.state.admits .lbracket = true) (hcallee : n.callee = none)
    {inner : List Token} {left right : Token} (hleft : left.kind = .lbracket) (hright : right.kind = .rbracket)
    (haccepted : verdict table (left :: (inner ++ [right])) = .ok ()) :
    n.run table (left :: (inner ++ [right])) =
      .ok ⟨.after .rbracket, n.position + (inner.length + 2), none, n.openings⟩ := by
  obtain ⟨m, hrun, hclosed⟩ := exists_run_of_verdict haccepted
  obtain ⟨hannounced, haccounts⟩ := accounts_of_run hrun
  have hstate : m.state = .after .rbracket := by
    rw [haccounts.state, ← List.cons_append, State.behind_append, hright]
  have hnone : m.callee = none := hannounced.unnamed (by rw [hstate]; decide)
  have hposition : m.position = inner.length + 2 := by rw [haccounts.position]; simp
  -- The bracket is taken here as at the start, and from there on the same run goes on.
  have hopens : Taken table left initial ⟨.after left.kind, 1, none, [.group]⟩ := .opens hleft
  have hopensHere : Taken table left n (inside n.openings n.position ⟨.after left.kind, 1, none, [.group]⟩) := by
    have htaken : Taken table left n _ := .opens hleft
    rw [opening, hcallee] at htaken
    exact htaken
  rw [run_of_taken initial_announced (by rw [hleft]; rfl) hopens] at hrun
  rw [run_of_taken h (by rw [hleft]; exact hadmits) hopensHere]
  refine (run_inside hopens.announced hrun n.openings n.position).trans ?_
  rw [inside, hstate, hposition, hnone, hclosed]
  rfl

end Nesting

/-! ### Behind a group instead of a value -/

/-- The error that it is if a group with `extra` more tokens stands where a value stood: right behind
the place the grammar has taken a right bracket, and every position is further on. -/
def Error.behindGroup (place extra : Nat) : Error → Error
  | .violation (.unexpectedToken token? state position) =>
    .violation (.unexpectedToken token? (if position = place + 1 then .after .rbracket else state) (position + extra))
  | error => error

namespace Nesting
variable {table : Dialect} {token : Token} {tokens : List Token} {n : Nesting} {place extra : Nat}

def behindGroup (place extra : Nat) (n : Nesting) : Nesting :=
  { n with state := if n.position = place + 1 then .after .rbracket else n.state, position := n.position + extra }

/-- The place is passed, and what is directly behind it comes after a value. -/
structure Behind (place : Nat) (n : Nesting) : Prop where
  lt : place < n.position
  value : n.position = place + 1 → ∃ kind : TokenKind, kind.isLeaf = true ∧ n.state = .after kind

theorem Behind.admits (h : n.Behind place) (kind : TokenKind) :
    (n.behindGroup place extra).state.admits kind = n.state.admits kind := by
  unfold behindGroup
  by_cases hnext : n.position = place + 1
  · obtain ⟨leaf, hleaf, hstate⟩ := h.value hnext
    rw [if_pos hnext, hstate, State.admits_after_leaf hleaf]
    rfl
  · rw [if_neg hnext]

theorem Behind.enter (n : Nesting) (token : Token) :
    Agree (fun next other => other = next.behindGroup place extra ∧ next.position = n.position)
      (fun error other => other = error.behindGroup place extra)
      (n.enter table token) ((n.behindGroup place extra).enter table token) := by
  have hopenings : (n.behindGroup place extra).openings = n.openings := rfl
  unfold Nesting.enter
  cases token.kind with
  | function =>
    cases table.arity token.text with
    | none => exact .error rfl
    | some arity => exact .ok ⟨rfl, rfl⟩
  | lbracket => exact .ok ⟨rfl, rfl⟩
  | rbracket =>
    simp only [hopenings]
    split
    · exact .error rfl
    · exact .ok ⟨rfl, rfl⟩
    · unfold checkArity
      split
      · exact .ok ⟨rfl, rfl⟩
      · exact .error rfl
  | separator =>
    simp only [hopenings]
    split
    · exact .ok ⟨rfl, rfl⟩
    · exact .error rfl
  | _ => exact .ok ⟨rfl, rfl⟩

theorem advance_behindGroup (h : place < n.position) (kind : TokenKind) :
    (n.behindGroup place extra).advance kind = (n.advance kind).behindGroup place extra := by
  have hpast : (n.advance kind).position ≠ place + 1 := fun heq => Nat.ne_of_gt h (Nat.succ.inj heq)
  unfold behindGroup
  rw [if_neg hpast]
  simp only [advance, Nat.add_right_comm]

theorem Behind.step (h : n.Behind place) (token : Token) :
    Agree (fun next other => other = next.behindGroup place extra ∧ next.Behind place)
      (fun error other => other = error.behindGroup place extra)
      (n.step table token) ((n.behindGroup place extra).step table token) := by
  unfold Nesting.step
  simp only [Grammar.arithmetic_accepts, h.admits]
  split
  · refine (Behind.enter n token).map fun next other ⟨hother, hposition⟩ => ?_
    have hlt : place < next.position := hposition ▸ h.lt
    refine ⟨by rw [hother, advance_behindGroup hlt], Nat.lt_succ_of_lt hlt, fun hnext => ?_⟩
    exact absurd (Nat.succ.inj hnext) (Nat.ne_of_gt hlt)
  · exact .error rfl

theorem Behind.finish (h : n.Behind place) :
    Agree (· = ·) (fun error other => other = error.behindGroup place extra)
      n.finish (n.behindGroup place extra).finish := by
  have hopenings : (n.behindGroup place extra).openings = n.openings := rfl
  have haccepting : (n.behindGroup place extra).state.accepting = n.state.accepting := by
    rw [← State.accepting_iff_admits (.inl rfl), ← State.accepting_iff_admits (.inl rfl), h.admits]
  unfold Nesting.finish
  rw [hopenings, haccepting]
  split
  · exact .error rfl
  · split
    · exact .ok rfl
    · exact .error rfl

/-- What is left of the input ends alike behind a group and behind a value. -/
theorem Behind.run_finish (h : n.Behind place) (tokens : List Token) :
    Agree (· = ·) (fun error other => other = error.behindGroup place extra)
      ((n.run table tokens).bind Nesting.finish)
      (((n.behindGroup place extra).run table tokens).bind Nesting.finish) := by
  induction tokens generalizing n with
  | nil => exact h.finish
  | cons token rest ih =>
    rw [run, run, bind_bind, bind_bind]
    refine (h.step token).bind ?_
    rintro next _ ⟨rfl, hbehind⟩
    exact ih hbehind

/-! ### The place itself -/

variable {inner later : List Token} {leaf left right : Token}

/-- Where a value is taken, a group leaves the rest of the input to be taken alike. -/
theorem run_finish_group (h : n.Announced) (hcallee : n.callee = none) (hleaf : leaf.kind.isLeaf = true)
    (hleafLegal : n.state.admits leaf.kind = true) (hleft : left.kind = .lbracket)
    (hleftLegal : n.state.admits .lbracket = true) (hright : right.kind = .rbracket)
    (haccepted : verdict table (left :: (inner ++ [right])) = .ok ()) :
    Agree (· = ·) (fun error other => other = error.behindGroup n.position (inner.length + 1))
      ((n.run table (leaf :: later)).bind finish)
      ((n.run table (left :: (inner ++ right :: later))).bind finish) := by
  have hvalue : Taken table leaf n ⟨.after leaf.kind, n.position + 1, none, n.openings⟩ :=
    .plain (.inl hleaf) hcallee
  have hbehind : Behind n.position ⟨.after leaf.kind, n.position + 1, none, n.openings⟩ :=
    ⟨Nat.lt_succ_self _, fun _ => ⟨leaf.kind, hleaf, rfl⟩⟩
  have hgroup : n.run table (left :: (inner ++ [right])) = .ok (behindGroup n.position (inner.length + 1)
      ⟨.after leaf.kind, n.position + 1, none, n.openings⟩) := by
    rw [run_group h hleftLegal hcallee hleft hright haccepted, behindGroup, if_pos rfl]
    simp only [Nat.add_assoc, Nat.add_comm 1]
  have hsplit : left :: (inner ++ right :: later) = left :: (inner ++ [right]) ++ later := by simp
  rw [hsplit, run_append, hgroup, run_of_taken h hleafLegal hvalue]
  exact hbehind.run_finish later

end Nesting

theorem State.admits_lbracket {state : State} (h : state ≠ .after .function) :
    state.admits .lbracket = state.admits .var := by
  cases state with
  | start => rfl
  | after kind =>
    cases kind with
    | function => exact absurd rfl h
    | _ => rfl

namespace Scanner
variable {table : Dialect} {session : Session} {before inner later : List Token} {leaf left right : Token}

theorem passes_iff_nesting {tokens : List Token} :
    Passes table session tokens ↔ ∃ n, Nesting.initial.run table tokens = .ok n := by
  refine ⟨fun h => ?_, fun ⟨n, hrun⟩ => passes_iff.mpr ⟨n.session, ?_⟩⟩
  · obtain ⟨n, hrun, -⟩ := h.exists_placed
    exact ⟨n, hrun⟩
  · exact (Nesting.run_session Nesting.initial_announced tokens).trans (congrArg (Except.map Nesting.session) hrun)

/-- Before the place both lists fail alike, at the place each has its own token refused, and behind it
they end alike. -/
theorem group_cases (haccepted : scanResult table session inner = .ok ()) (hleaf : leaf.kind.isLeaf = true)
    (hleft : left.kind = .lbracket) (hright : right.kind = .rbracket)
    (hbefore : ∀ token ∈ before.getLast?, token.kind ≠ .function) :
    (¬ Passes table session before ∧ ∃ error,
      scanResult table session (before ++ leaf :: later) = .error error ∧
      scanResult table session (before ++ left :: (inner ++ right :: later)) = .error error) ∨
    (Passes table session before ∧ ¬ Passes table session (before ++ [leaf]) ∧ ∃ state,
      scanResult table session (before ++ leaf :: later) =
        .error (.violation (.unexpectedToken (some leaf) state before.length)) ∧
      scanResult table session (before ++ left :: (inner ++ right :: later)) =
        .error (.violation (.unexpectedToken (some left) state before.length))) ∨
    (Passes table session (before ++ [leaf]) ∧
      Agree (· = ·) (fun error other => other = error.behindGroup before.length (inner.length + 1))
        (scanResult table session (before ++ leaf :: later))
        (scanResult table session (before ++ left :: (inner ++ right :: later)))) := by
  cases hrun : Nesting.initial.run table before with
  | error e =>
    have hfails : ∀ rest, scanResult table session (before ++ rest) = .error e := fun rest => by
      rw [scanResult_eq_nesting, Nesting.verdict, Nesting.run_append, hrun]
      rfl
    refine .inl ⟨fun hpasses => ?_, e, hfails _, hfails _⟩
    obtain ⟨n, hn⟩ := passes_iff_nesting.mp hpasses
    rw [hrun] at hn
    cases hn
  | ok n =>
    obtain ⟨hannounced, haccounts⟩ := Nesting.accounts_of_run hrun
    have hstate : n.state ≠ .after .function := by
      rw [haccounts.state, State.behind]
      cases hlast : before.getLast? with
      | none => simp
      | some token => simpa using hbefore token hlast
    have hcallee : n.callee = none := hannounced.unnamed hstate
    have hleafLegal : n.state.admits leaf.kind = n.state.admits .var := State.admits_leaf n.state hleaf
    have hleftLegal : n.state.admits .lbracket = n.state.admits .var := State.admits_lbracket hstate
    have hnext : ∀ rest, Nesting.initial.run table (before ++ rest) = n.run table rest := fun rest => by
      rw [Nesting.run_append, hrun]
      rfl
    rw [scanResult_append hrun, scanResult_append hrun, ← haccounts.position]
    refine .inr ?_
    cases hlegal : n.state.admits .var with
    | false =>
      rw [hlegal] at hleafLegal hleftLegal
      have hleafRefused : n.step table leaf = .error (n.unexpected (some leaf)) := Nesting.step_refused hleafLegal
      have hleftRefused : n.step table left = .error (n.unexpected (some left)) :=
        Nesting.step_refused (hleft ▸ hleftLegal)
      refine .inl ⟨passes_iff_nesting.mpr ⟨n, hrun⟩, fun hpasses => ?_, n.state, ?_, ?_⟩
      · obtain ⟨m, hm⟩ := passes_iff_nesting.mp hpasses
        rw [hnext, Nesting.run, hleafRefused] at hm
        cases hm
      · rw [Nesting.run, hleafRefused]
        rfl
      · rw [Nesting.run, hleftRefused]
        rfl
    | true =>
      rw [hlegal] at hleafLegal hleftLegal
      refine .inr ⟨passes_iff_nesting.mpr ⟨⟨.after leaf.kind, n.position + 1, none, n.openings⟩, ?_⟩, ?_⟩
      · rw [hnext, Nesting.run_of_taken hannounced hleafLegal (.plain (.inl hleaf) hcallee)]
        rfl
      · refine Nesting.run_finish_group hannounced hcallee hleaf hleafLegal hleft hleftLegal hright ?_
        rw [← scanResult_eq_nesting table session]
        exact accepted_group haccepted hleft hright

/-- **An expression in brackets may stand for a value anywhere** but behind a function name. Both lists are
accepted, or neither is. What fails before the place fails in the same way; where the value is refused,
the bracket is, in the same state at the same position; what fails behind the place, at a token or at the
end, fails for the same cause, further on by the tokens that were added, and directly behind the place
the state is that of the right bracket. -/
theorem group_in_place_of_leaf (table : Dialect) (session : Session) (before inner later : List Token)
    (leaf left right : Token) (haccepted : scanResult table session inner = .ok ())
    (hleaf : leaf.kind.isLeaf = true) (hleft : left.kind = .lbracket) (hright : right.kind = .rbracket)
    (hbefore : ∀ token ∈ before.getLast?, token.kind ≠ .function) :
    (scanResult table session (before ++ leaf :: later) = .ok () ↔
      scanResult table session (before ++ left :: (inner ++ right :: later)) = .ok ()) ∧
    (∀ error, scanResult table session (before ++ leaf :: later) = .error error → error.atEnd = false →
      ∃ k, DecidedAt table session (before ++ leaf :: later) error k ∧
        (k < before.length →
          scanResult table session (before ++ left :: (inner ++ right :: later)) = .error error) ∧
        (k = before.length → ∃ state, error = .violation (.unexpectedToken (some leaf) state k) ∧
          scanResult table session (before ++ left :: (inner ++ right :: later)) =
            .error (.violation (.unexpectedToken (some left) state k))) ∧
        (before.length < k →
          scanResult table session (before ++ left :: (inner ++ right :: later)) =
            .error (error.behindGroup before.length (inner.length + 1)))) ∧
    (∀ error, scanResult table session (before ++ leaf :: later) = .error error → error.atEnd = true →
      scanResult table session (before ++ left :: (inner ++ right :: later)) =
        .error (error.behindGroup before.length (inner.length + 1))) := by
  have htake : (before ++ leaf :: later).take before.length = before := List.take_left
  have htakeLeaf : (before ++ leaf :: later).take (before.length + 1) = before ++ [leaf] := by
    rw [← List.singleton_append, ← List.append_assoc]
    exact List.take_left' List.length_append
  -- The position that decides is told by which beginnings of the list pass.
  have hdecided : ∀ error, scanResult table session (before ++ leaf :: later) = .error error →
      error.atEnd = false → ∃ k, DecidedAt table session (before ++ leaf :: later) error k ∧
        (Passes table session before ↔ before.length ≤ k) ∧
        (Passes table session (before ++ [leaf]) ↔ before.length + 1 ≤ k) := by
    intro error hplain herror
    obtain ⟨k, hk⟩ := exists_decidedAt hplain herror
    have hpasses : ∀ i, Passes table session ((before ++ leaf :: later).take i) ↔ i ≤ k :=
      fun _ => hk.passes_take_iff herror
    have hleafPasses := hpasses (before.length + 1)
    have hbeforePasses := hpasses before.length
    rw [htakeLeaf] at hleafPasses
    rw [htake] at hbeforePasses
    exact ⟨k, hk, hbeforePasses, hleafPasses⟩
  rcases group_cases haccepted hleaf hleft hright hbefore with
    ⟨hfails, e, hplain, hgrouped⟩ | ⟨hpasses, hfails, state, hplain, hgrouped⟩ | ⟨hpasses, hagree⟩
  · rw [hgrouped]
    refine ⟨by rw [hplain], fun error herror hend => ?_, fun error herror hend => ?_⟩
    · obtain ⟨k, hk, hiff, -⟩ := hdecided error herror hend
      rw [hplain] at herror
      have hlt : ¬ before.length ≤ k := fun hle => hfails (hiff.mpr hle)
      exact ⟨k, hk, fun _ => herror, fun heq => absurd (Nat.le_of_eq heq.symm) hlt,
        fun hgt => absurd (Nat.le_of_lt hgt) hlt⟩
    · exact absurd (Passes.left (.inr ⟨error, herror, hend⟩)) hfails
  · rw [hgrouped]
    refine ⟨by rw [hplain]; simp, fun error herror hend => ?_, fun error herror hend => ?_⟩
    · obtain ⟨k, hk, hiff, hiffLeaf⟩ := hdecided error herror hend
      rw [hplain] at herror
      have hle : before.length ≤ k := hiff.mp hpasses
      have hge : ¬ before.length < k := fun hlt => hfails (hiffLeaf.mpr hlt)
      obtain rfl : k = before.length := by omega
      exact ⟨before.length, hk, fun hlt => absurd hlt (Nat.lt_irrefl _),
        fun _ => ⟨state, (Except.error.inj herror).symm, rfl⟩, fun hlt => absurd hlt hge⟩
    · rw [hplain] at herror
      cases herror
      cases hend
  · have hgrouped : ∀ error, scanResult table session (before ++ leaf :: later) = .error error →
        scanResult table session (before ++ left :: (inner ++ right :: later)) =
          .error (error.behindGroup before.length (inner.length + 1)) := by
      intro error herror
      obtain ⟨_, hother, rfl⟩ := hagree.of_error herror
      exact hother
    refine ⟨hagree.eq_ok_iff (), fun error herror hend => ?_, fun error herror _ => hgrouped error herror⟩
    obtain ⟨k, hk, -, hiffLeaf⟩ := hdecided error herror hend
    have hlt : before.length < k := hiffLeaf.mp hpasses
    exact ⟨k, hk, fun hgt => absurd hlt (Nat.lt_asymm hgt), fun heq => absurd heq (Nat.ne_of_gt hlt),
      fun _ => hgrouped error herror⟩

/-- In `sin(x 2` the number is refused behind `x`, and in `sin((cos(z))2` behind the bracket. -/
theorem group_in_place_of_leaf_call :
    scanResult .default .initial [.function "cos", .lbracket, .var "z", .rbracket] = .ok () ∧
    scanResult .default .initial [.function "sin", .lbracket, .lbracket, .function "cos", .lbracket, .var "z",
        .rbracket, .rbracket, .number "2"] =
      .error (.violation (.unexpectedToken (some (.number "2")) (.after .rbracket) 8)) := by
  obtain ⟨-, hfails, -⟩ := group_in_place_of_leaf .default .initial [.function "sin", .lbracket]
    [.function "cos", .lbracket, .var "z", .rbracket] [.number "2"] (.var "x") .lbracket .rbracket
    rfl rfl rfl rfl (by decide)
  obtain ⟨k, hk, -, -, hbehind⟩ := hfails _ rfl rfl
  have hpasses : Passes .default .initial [.function "sin", .lbracket, .var "x"] := .inr ⟨_, rfl, rfl⟩
  exact ⟨rfl, hbehind ((hk.passes_take_iff rfl).mp hpasses)⟩

end Scanner

end Formula
