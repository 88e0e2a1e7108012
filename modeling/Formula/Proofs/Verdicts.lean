import Formula.Proofs.Acceptance
import Formula.Proofs.Refusal

/-! What a scan says of the brackets.

A bracket without a partner is reported where it is: a right one behind a list that
would have been accepted, a left one at the end of a list that was taken as a whole.
As the depth of a session is the excess of left brackets, no prefix that a scan takes
has a negative excess, so the two verdicts are read off the counts of the list
(`Scanner.bracket_verdicts`), and a balanced list gets neither. -/
namespace Formula

namespace Session
variable {table : Dialect} {tokens : List Token} {token : Token} {s : Session}

/-- What a run takes nowhere closes more brackets than it opens. -/
theorem excess_take_of_run (hrun : initial.run .arithmetic table tokens = .ok s) (i : Nat) :
    0 ≤ excess (tokens.take i) := by
  obtain ⟨t, ht⟩ := exists_run_of_prefix (List.take_prefix i tokens) hrun
  rw [← (sound_of_run ht).depth]
  exact Int.natCast_nonneg t.depth

theorem balanced_of_run (hrun : initial.run .arithmetic table tokens = .ok s) (hdepth : s.depth = 0) :
    Balanced tokens := by
  refine ⟨?_, excess_take_of_run hrun⟩
  rw [← (sound_of_run hrun).depth, hdepth]
  rfl

theorem finish_missing_right_iff (s : Session) :
    s.finish = .error (.violation (.unbalancedBrackets .right)) ↔ 0 < s.depth := by
  unfold finish
  split
  · next hopen => exact ⟨fun _ => hopen, fun _ => rfl⟩
  · next hclosed =>
    refine ⟨fun h => ?_, fun h => absurd h hclosed⟩
    split at h <;> cases h

/-- A right bracket lacks its partner exactly where the input might have ended. -/
theorem step_missing_left_iff (s : Session) (token : Token) :
    s.step .arithmetic table token = .error (.violation (.unbalancedBrackets .left)) ↔
      token.kind = .rbracket ∧ s.finish = .ok () := by
  have hlegal : Grammar.arithmetic.accepts s.state .rbracket = s.state.accepting :=
    (Grammar.arithmetic_accepts ..).trans (State.accepting_iff_admits (.inr (.inl rfl)))
  rw [finish_eq_ok_iff]
  constructor
  · intro h
    generalize herror : Error.violation (.unbalancedBrackets .left) = error at h
    cases refuses_of_step h with
    | unexpected => cases herror
    | unknown => cases herror
    | unopened hkind hpasses hdepth => exact ⟨hkind, hdepth, hlegal.symm.trans hpasses⟩
    | mismatch => cases herror
  · rintro ⟨hkind, hdepth, haccepting⟩
    unfold step
    rw [hkind, if_pos (hlegal.trans haccepting)]
    simp only [enter, hkind, hdepth, if_true, Except.map]

end Session

namespace Scanner
variable {table : Dialect} {session : Session} {tokens : List Token}

theorem scanResult_eq_ok_iff :
    scanResult table session tokens = .ok () ↔ Derives table .expression tokens := by
  rw [scanResult_eq_nesting, Nesting.verdict_eq_ok_iff]

theorem balanced_of_accepted (h : scanResult table session tokens = .ok ()) : Balanced tokens := by
  obtain ⟨s, hrun, hdepth, -⟩ := Session.exists_run_of_accepted h
  exact Session.balanced_of_run hrun hdepth

theorem scanResult_missing_left_iff :
    scanResult table session tokens = .error (.violation (.unbalancedBrackets .left)) ↔
      ∃ i, kindAt tokens i = some .rbracket ∧ scanResult table session (tokens.take i) = .ok () := by
  constructor
  · intro h
    obtain ⟨i, token, s, hrun, hat, hrefused⟩ :=
      Session.exists_refused (Session.run_of_not_atEnd h rfl)
    obtain ⟨hkind, hfinish⟩ := (Session.step_missing_left_iff s token).mp hrefused
    refine ⟨i, by rw [kindAt, hat, ← hkind]; rfl, ?_⟩
    rw [scanResult_eq, hrun]
    exact hfinish
  · rintro ⟨i, hkind, hok⟩
    obtain ⟨right, hat, hright⟩ := Option.map_eq_some_iff.mp hkind
    obtain ⟨s, hrun, hends⟩ := Session.exists_run_of_accepted hok
    exact scanResult_of_refused hrun hat
      ((Session.step_missing_left_iff s right).mpr ⟨hright, (Session.finish_eq_ok_iff s).mpr hends⟩)

theorem scanResult_missing_right_iff :
    scanResult table session tokens = .error (.violation (.unbalancedBrackets .right)) ↔
      (∃ s, Session.initial.run .arithmetic table tokens = .ok s) ∧ 0 < excess tokens := by
  have hdepth : ∀ {s}, Session.initial.run .arithmetic table tokens = .ok s →
      (s.finish = .error (.violation (.unbalancedBrackets .right)) ↔ 0 < excess tokens) := by
    intro s hrun
    rw [Session.finish_missing_right_iff, ← (Session.sound_of_run hrun).depth]
    exact Int.natCast_pos.symm
  rw [scanResult_eq]
  constructor
  · intro h
    obtain ⟨last, hrun, hfinish⟩ := Session.exists_run_of_atEnd h rfl
    exact ⟨⟨last, hrun⟩, (hdepth hrun).mp hfinish⟩
  · rintro ⟨⟨s, hrun⟩, hopen⟩
    rw [hrun]
    exact (hdepth hrun).mpr hopen

/-- A balanced list is not refused for its brackets. -/
theorem scanResult_of_balanced (h : Balanced tokens) (missing : Bracket) :
    scanResult table session tokens ≠ .error (.violation (.unbalancedBrackets missing)) := by
  intro hresult
  cases missing with
  | left =>
    obtain ⟨i, hkind, hok⟩ := scanResult_missing_left_iff.mp hresult
    obtain ⟨right, hat, hright⟩ := Option.map_eq_some_iff.mp hkind
    -- Up to the bracket as many were closed as opened, so it would be one too many.
    have hahead := h.ahead (i + 1)
    rw [List.take_add_one, hat, excess_append, (balanced_of_accepted hok).total] at hahead
    rw [show (some right).toList = [right] from rfl, excess_rbracket hright] at hahead
    exact absurd hahead (by decide)
  | right =>
    have hopen := (scanResult_missing_right_iff.mp hresult).2
    rw [h.total] at hopen
    exact absurd hopen (by decide)

/-- An accepted list is accepted in brackets. -/
theorem accepted_group (h : scanResult table session tokens = .ok ()) {left right : Token}
    (hleft : left.kind = .lbracket) (hright : right.kind = .rbracket) :
    scanResult table session (left :: (tokens ++ [right])) = .ok () := by
  rw [scanResult_eq_ok_iff] at h ⊢
  have hterm := Derives.unsigned (Derives.group hleft h hright)
  simpa only [List.append_nil] using hterm.expression .done

/-- **A bracket is reported as lacking its partner exactly by the counts**: a right bracket behind a
list that is accepted, a left one where all tokens are taken and the excess is positive. What is
accepted or lacks an operand at its end is balanced, an unexpected token has no negative excess before
it, a balanced list is never reported, and one bracket more at an end of an accepted list always is. -/
theorem bracket_verdicts (table : Dialect) (session : Session) (tokens : List Token) :
    (scanResult table session tokens = .error (.violation (.unbalancedBrackets .left)) ↔
      ∃ i, kindAt tokens i = some .rbracket ∧ scanResult table session (tokens.take i) = .ok ()) ∧
    (scanResult table session tokens = .error (.violation (.unbalancedBrackets .right)) ↔
      (∃ s, Session.initial.run .arithmetic table tokens = .ok s) ∧ 0 < excess tokens) ∧
    (scanResult table session tokens = .ok () ∨ (∃ state position, scanResult table session tokens =
        .error (.violation (.unexpectedToken none state position))) →
      (∀ i, 0 ≤ excess (tokens.take i)) ∧ excess tokens = 0) ∧
    (∀ token state position, scanResult table session tokens =
        .error (.violation (.unexpectedToken (some token) state position)) →
      ∀ i ≤ position, 0 ≤ excess (tokens.take i)) ∧
    ((∀ i, 0 ≤ excess (tokens.take i)) → excess tokens = 0 → ∀ missing,
      scanResult table session tokens ≠ .error (.violation (.unbalancedBrackets missing))) ∧
    (scanResult table session tokens = .ok () →
      (∀ right : Token, right.kind = .rbracket → scanResult table session (tokens ++ [right]) =
        .error (.violation (.unbalancedBrackets .left))) ∧
      ∀ left : Token, left.kind = .lbracket → scanResult table session (left :: tokens) =
        .error (.violation (.unbalancedBrackets .right))) := by
  refine ⟨scanResult_missing_left_iff, scanResult_missing_right_iff, ?_, fun token state position h => ?_,
    fun hahead htotal => scanResult_of_balanced ⟨htotal, hahead⟩, fun hok => ⟨fun right hright => ?_,
      fun left hleft => ?_⟩⟩
  · rintro (hok | ⟨state, position, h⟩)
    · exact ⟨(balanced_of_accepted hok).ahead, (balanced_of_accepted hok).total⟩
    · obtain ⟨last, hrun, hfinish⟩ := Session.exists_run_of_atEnd h rfl
      have hbalanced := Session.balanced_of_run hrun (Session.finish_unexpected hfinish).1
      exact ⟨hbalanced.ahead, hbalanced.total⟩
  · obtain ⟨k, refused, s, hrun, hat, hrefused⟩ :=
      Session.exists_refused (Session.run_of_not_atEnd h rfl)
    obtain ⟨-, -, rfl⟩ := Session.step_unexpected hrefused
    intro i hi
    rw [(Session.sound_of_run hrun).position, List.length_take] at hi
    have hnonneg := Session.excess_take_of_run hrun i
    rwa [List.take_take, Nat.min_eq_left (Nat.le_trans hi (Nat.min_le_left ..))] at hnonneg
  · refine scanResult_missing_left_iff.mpr ⟨tokens.length, ?_, ?_⟩
    · simp [kindAt, hright]
    · rwa [List.take_left]
  · -- With a right bracket as well the list is accepted, so without it all tokens are taken.
    have hgroup := accepted_group hok hleft (rfl : Token.rbracket.kind = .rbracket)
    obtain ⟨s, hrun, -⟩ := Session.exists_run_of_accepted hgroup
    refine scanResult_missing_right_iff.mpr ⟨?_, ?_⟩
    · exact Session.exists_run_of_prefix ⟨[.rbracket], rfl⟩ hrun
    · rw [excess_lbracket hleft, (balanced_of_accepted hok).total]
      decide

end Scanner

end Formula
