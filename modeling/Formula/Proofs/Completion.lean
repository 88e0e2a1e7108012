import Formula.Proofs.Acceptance
import Formula.Proofs.Arguments

/-! Which beginnings can still become expressions.

A nesting is completed from the inside out: an operand where one is due, then for each
open bracket what closes it, with as many further arguments as its call lacks
(`exists_completes`). The one thing no rest can mend is a call with too many separators
already, since they are never taken back (`Closes.room`). So the lists that begin an
expression are those that pass and whose open calls have room, and both are said of
the list alone (`Scanner.exists_completion_iff`). -/
namespace Formula

/-! ### The calls that are open, by counting -/

/-- A call that is open behind the tokens, and how many separators stand directly inside its bracket. -/
inductive OpenCall (tokens : List Token) : String → Nat → Prop where
  | opened {i : Nat} {function : Token} (hopen : Unclosed tokens i tokens.length)
      (hlast : lastFunction (tokens.take i) = some function) :
    OpenCall tokens function.text (separatorsInside tokens i tokens.length)
  /-- Only the name is there, its bracket is still to come. -/
  | announced {function : Token} (hlast : lastFunction tokens = some function) :
    OpenCall tokens function.text 0

/-- A call has fewer separators than its function takes arguments. -/
def Opening.HasRoom : Opening → Prop
  | .group => True
  | .call _ arity separators => separators < arity

/-- An expression is due, or the operand of a sign, or nothing, or the bracket of a call. -/
theorem State.due_cases (state : State) : state.admits .unary = true ∨ state = .after .unary ∨
    state.accepting = true ∨ state = .after .function := by
  cases state with
  | start => exact .inl rfl
  | after kind => cases kind <;> simp [admits, accepting, TokenKind.isLeaf]

namespace Nesting
variable {table : Dialect} {tokens : List Token} {i j : Nat}
variable {opening : Opening} {openings : List Opening} {n : Nesting}

/-- Inside a later open bracket, what an earlier one opened is described as it was before. -/
theorem Describes.later {k : Nat} (h : Describes table tokens i k opening) (hik : i < k)
    (hopen : Unclosed tokens k j) : Describes table tokens i j opening := by
  cases opening with
  | group => exact h
  | call name arity separators =>
    obtain ⟨function, hlast, hname, harity, hcount⟩ := h
    refine ⟨function, hlast, hname, harity, ?_⟩
    rw [hcount, separatorsInside_unclosed hik hopen]

/-- Counting finds every open bracket that the nesting has. -/
theorem Located.exists_unclosed (h : Located table tokens j openings) (hmem : opening ∈ openings) :
    ∃ i, Unclosed tokens i j ∧ Describes table tokens i j opening := by
  induction openings generalizing j with
  | nil => cases hmem
  | cons innermost outer ih =>
    obtain ⟨i, henclosed, hdescribed, houter⟩ := h
    rcases List.mem_cons.mp hmem with rfl | hmem
    · exact ⟨i, henclosed.unclosed, hdescribed⟩
    · obtain ⟨k, hopen, hdescribed⟩ := ih houter hmem
      exact ⟨k, hopen.trans henclosed.unclosed, hdescribed.later hopen.lt henclosed.unclosed⟩

/-- The nesting has every open bracket that counting finds. -/
theorem Located.exists_opening (h : Located table tokens j openings) (hopen : Unclosed tokens i j) :
    ∃ opening ∈ openings, Describes table tokens i j opening := by
  induction openings generalizing j with
  | nil => exact absurd hopen (Balanced.not_unclosed h)
  | cons innermost outer ih =>
    obtain ⟨k, henclosed, hdescribed, houter⟩ := h
    rcases Nat.eq_or_lt_of_le (henclosed.le_of_unclosed hopen) with rfl | hik
    · exact ⟨innermost, List.mem_cons_self, hdescribed⟩
    · obtain ⟨opening, hmem, hdescribed⟩ := ih houter (hopen.shorten hik (Nat.le_of_lt henclosed.lt))
      exact ⟨opening, List.mem_cons_of_mem _ hmem, hdescribed.later hik henclosed.unclosed⟩

/-! ### What a completion needs -/

theorem Closes.room (h : Closes table openings tokens) : ∀ opening ∈ openings, opening.HasRoom := by
  induction h with
  | outside => exact fun _ hmem => nomatch hmem
  | group _ _ _ ih => exact List.forall_mem_cons.mpr ⟨trivial, ih⟩
  | call _ _ _ ih => exact List.forall_mem_cons.mpr ⟨Nat.lt_succ_self _, ih⟩
  | argument _ _ _ ih =>
    -- Behind the separator there is still room, so there was before it.
    obtain ⟨hcall, houter⟩ := List.forall_mem_cons.mp ih
    exact List.forall_mem_cons.mpr ⟨Nat.lt_of_succ_lt hcall, houter⟩

theorem Completes.room (h : Completes table n tokens) : ∀ opening ∈ n.openings, opening.HasRoom := by
  cases h with
  | expression _ _ hrest => exact hrest.room
  | operand _ _ _ hrest => exact hrest.room
  | operations _ _ hrest => exact hrest.room
  | arguments _ _ _ _ _ _ hrest => exact hrest.room

/-! ### A completion -/

theorem derives_leaf {token : Token} (hleaf : token.kind.isLeaf = true) :
    Derives table .expression [token] := by
  have hterm : Derives table .term [token] := .unsigned (.leaf hleaf)
  exact hterm.expression .done

theorem exists_arguments (table : Dialect) (count : Nat) :
    ∃ inner, Derives table (.arguments (count + 1)) inner := by
  have hvar : Derives table .expression [.var "x"] := derives_leaf rfl
  induction count with
  | zero => exact ⟨_, .argument hvar⟩
  | succ count ih =>
    obtain ⟨rest, hrest⟩ := ih
    exact ⟨_, .arguments hvar (rfl : Token.separator.kind = .separator) hrest⟩

/-- A call that lacks so many arguments besides the one at hand is closed behind them. -/
theorem exists_closes_call {outer : List Opening} {rest : List Token} (hrest : Closes table outer rest)
    (name : String) (separators missing : Nat) :
    ∃ closing, Closes table (.call name (separators + missing + 1) separators :: outer) closing := by
  have hvar : Derives table .expression [.var "x"] := derives_leaf rfl
  induction missing generalizing separators with
  | zero => exact ⟨_, .call (rfl : Token.rbracket.kind = .rbracket) .done hrest⟩
  | succ missing ih =>
    obtain ⟨closing, hclosing⟩ := ih (separators + 1)
    rw [show separators + 1 + missing + 1 = separators + (missing + 1) + 1 by omega] at hclosing
    exact ⟨_, .argument (rfl : Token.separator.kind = .separator) hvar hclosing⟩

theorem exists_closes (h : ∀ opening ∈ openings, opening.HasRoom) :
    ∃ closing, Closes table openings closing := by
  induction openings with
  | nil => exact ⟨[], .outside⟩
  | cons opening outer ih =>
    obtain ⟨hopening, houter⟩ := List.forall_mem_cons.mp h
    obtain ⟨rest, hrest⟩ := ih houter
    cases opening with
    | group => exact ⟨_, .group (rfl : Token.rbracket.kind = .rbracket) .done hrest⟩
    | call name arity separators =>
      obtain ⟨missing, rfl⟩ := Nat.exists_eq_add_of_lt hopening
      exact exists_closes_call hrest name separators missing

/-- Where no call is too long already, some rest completes the nesting. -/
theorem exists_completes (h : n.Announced) (hroom : ∀ opening ∈ n.openings, opening.HasRoom)
    (hcallee : ∀ name arity, n.callee = some (name, arity) → 0 < arity) :
    ∃ rest, Completes table n rest := by
  obtain ⟨closing, hclosing⟩ : ∃ closing, Closes table n.openings closing := exists_closes hroom
  have hoperand : Derives table .operand [.var "x"] := .leaf rfl
  rcases n.state.due_cases with hstate | hstate | hstate | hstate
  · exact ⟨_, .expression hstate (derives_leaf (rfl : (Token.var "x").kind.isLeaf = true)) hclosing⟩
  · exact ⟨_, .operand hstate hoperand .done hclosing⟩
  · exact ⟨_, .operations hstate .done hclosing⟩
  · obtain ⟨⟨name, arity⟩, hdue⟩ := Option.isSome_iff_exists.mp (h.mpr hstate)
    obtain ⟨count, rfl⟩ := Nat.exists_eq_succ_of_ne_zero (Nat.ne_of_gt (hcallee name arity hdue))
    obtain ⟨inner, hinner⟩ := exists_arguments table count
    exact ⟨_, .arguments hstate hdue (rfl : Token.lbracket.kind = .lbracket) hinner
      (rfl : Token.rbracket.kind = .rbracket) .done hclosing⟩

/-! ### Open calls of a list and of its nesting -/

/-- A call that has its bracket is open in the nesting, one that has not is the one that is announced. -/
theorem Placed.arity_of_openCall (h : n.Placed table tokens) {name : String} {separators : Nat}
    (hcall : OpenCall tokens name separators) :
    (∃ arity, table.arity name = some arity ∧ .call name arity separators ∈ n.openings) ∨
      separators = 0 ∧ ∃ arity, table.arity name = some arity := by
  cases hcall with
  | opened hopen hlast =>
    have hlocated := h.located tokens (List.prefix_refl tokens)
    obtain ⟨opening, hmem, hdescribed⟩ := hlocated.exists_opening hopen
    cases opening with
    | group => rw [show _ = none from hdescribed] at hlast; cases hlast
    | call name arity separators =>
      obtain ⟨function, hfunction, rfl, harity, rfl⟩ := hdescribed
      rw [hlast] at hfunction
      cases hfunction
      exact .inl ⟨arity, harity, hmem⟩
  | announced hlast =>
    cases hcallee : n.callee with
    | none =>
      rw [h.unnamed hcallee] at hlast
      cases hlast
    | some callee =>
      obtain ⟨function, hfunction, hname, harity⟩ := h.named callee.1 callee.2 hcallee
      rw [hlast] at hfunction
      cases hfunction
      exact .inr ⟨rfl, callee.2, hname ▸ harity⟩

theorem Placed.openCall_of_mem (h : n.Placed table tokens) {name : String} {arity separators : Nat}
    (hmem : .call name arity separators ∈ n.openings) :
    OpenCall tokens name separators ∧ table.arity name = some arity := by
  have hlocated := h.located tokens (List.prefix_refl tokens)
  obtain ⟨i, hopen, ⟨function, hlast, rfl, harity, rfl⟩⟩ := hlocated.exists_unclosed hmem
  exact ⟨.opened hopen hlast, harity⟩

/-- The open calls of a list have room exactly if those of its nesting have. -/
theorem Placed.room_iff (h : n.Placed table tokens) :
    (∀ name separators, OpenCall tokens name separators →
      ∃ arity, table.arity name = some arity ∧ separators < arity) ↔
    ∀ opening ∈ n.openings, opening.HasRoom := by
  constructor
  · intro hcalls opening hmem
    cases opening with
    | group => trivial
    | call name arity separators =>
      obtain ⟨hcall, harity⟩ := h.openCall_of_mem hmem
      obtain ⟨arity', harity', hlt⟩ := hcalls name separators hcall
      rw [harity] at harity'
      cases harity'
      exact hlt
  · intro hroom name separators hcall
    rcases h.arity_of_openCall hcall with ⟨arity, harity, hmem⟩ | ⟨rfl, arity, harity⟩
    · exact ⟨arity, harity, hroom _ hmem⟩
    · exact ⟨arity, harity, (table.proper name arity harity).2⟩

end Nesting

/-- What a scan takes leads to a nesting whose open brackets are placed. -/
theorem Scanner.Passes.exists_placed {table : Dialect} {session : Session} {tokens : List Token}
    (h : Passes table session tokens) : ∃ n, Nesting.initial.run table tokens = .ok n ∧
      n.Announced ∧ n.Placed table tokens := by
  obtain ⟨t, hrun⟩ := passes_iff.mp h
  obtain ⟨n, hn, -⟩ := Nesting.exists_nesting hrun
  exact ⟨n, hn, Nesting.placed_of_run hn⟩

/-- Behind a list that a nesting has taken, a scan goes on from the nesting. -/
theorem Scanner.scanResult_append {table : Dialect} {tokens : List Token} {n : Nesting}
    (hrun : Nesting.initial.run table tokens = .ok n) (session : Session) (rest : List Token) :
    scanResult table session (tokens ++ rest) = (n.run table rest).bind Nesting.finish := by
  rw [scanResult_eq_nesting, Nesting.verdict, Nesting.run_append, hrun]
  rfl

/-- **A list begins an expression exactly if it passes and every open call has room**, that is, fewer
separators directly inside its bracket than its function takes arguments: nothing else is ever refused
too late, and nothing too early. -/
theorem Scanner.exists_completion_iff (table : Dialect) (session : Session) (tokens : List Token) :
    (∃ rest, scanResult table session (tokens ++ rest) = .ok ()) ↔
      Passes table session tokens ∧ ∀ name separators, OpenCall tokens name separators →
        ∃ arity, table.arity name = some arity ∧ separators < arity := by
  constructor
  · rintro ⟨rest, hok⟩
    obtain ⟨s, hall, -⟩ := Session.exists_run_of_accepted hok
    have hpasses : Passes table session tokens :=
      passes_iff.mpr (Session.exists_run_of_prefix (List.prefix_append tokens rest) hall)
    obtain ⟨n, hn, hannounced, hplaced⟩ := hpasses.exists_placed
    rw [scanResult_append hn] at hok
    have hcompletes := (Nesting.completes_iff hannounced rest).mpr hok
    exact ⟨hpasses, hplaced.room_iff.mpr hcompletes.room⟩
  · rintro ⟨hpasses, hcalls⟩
    obtain ⟨n, hn, hannounced, hplaced⟩ := hpasses.exists_placed
    -- A call whose bracket is still to come has room because no function takes no argument.
    have hcallee : ∀ name arity, n.callee = some (name, arity) → 0 < arity := by
      intro name arity hdue
      obtain ⟨-, -, -, harity⟩ := hplaced.named name arity hdue
      exact (table.proper name arity harity).2
    obtain ⟨rest, hrest⟩ := Nesting.exists_completes hannounced (hplaced.room_iff.mp hcalls) hcallee
    refine ⟨rest, ?_⟩
    rw [scanResult_append hn]
    exact (Nesting.completes_iff hannounced rest).mp hrest

end Formula
