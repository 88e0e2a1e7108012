import Formula.Proofs.Brackets
import Formula.Proofs.Nesting

/-! What the counters of a session say of the tokens that were consumed.

`Session.Sound` is the invariant of a scan: the depth is the excess of left
brackets, the calls lie inside one another, and only the call of a function name
that was the last token has its own bracket still to come. It is read off the
nesting behind the session, for which every token keeps the few facts of
`Nesting.Accounts`. From it follow that a scan which may end has no open call, and
that no counter outgrows the input (`session_safe`). -/
namespace Formula

namespace Nesting
variable {table : Dialect}

/-- What a nesting says of the tokens that were consumed. -/
structure Accounts (consumed : List Token) (n : Nesting) : Prop where
  state : n.state = State.behind consumed
  position : n.position = consumed.length
  depth : (n.openings.length : Int) = excess consumed
  separators : ∀ name arity separators, .call name arity separators ∈ n.openings →
    separators ≤ consumed.length

theorem Accounts.position_take {tokens : List Token} {j : Nat} {n : Nesting} (h : n.Accounts (tokens.take j))
    (hj : j ≤ tokens.length) : n.position = j := by
  rw [h.position, List.length_take, Nat.min_eq_left hj]

theorem initial_accounts : initial.Accounts [] :=
  ⟨rfl, rfl, rfl, fun _ _ _ h => nomatch h⟩

theorem Accounts.step {consumed : List Token} {n next : Nesting} {token : Token}
    (h : n.Accounts consumed) (htaken : Taken table token n next) :
    next.Accounts (consumed ++ [token]) := by
  have hlength : (consumed ++ [token]).length = consumed.length + 1 := by simp
  have hposition : n.position + 1 = (consumed ++ [token]).length := by rw [h.position, hlength]
  have hdepth := h.depth
  have hinner : token.Inner → (n.openings.length : Int) = excess (consumed ++ [token]) := by
    intro hi
    rw [excess_append, excess_inner hi, hdepth, excess_nil, Int.add_zero]
  have hkept : ∀ name arity separators, .call name arity separators ∈ n.openings →
      separators ≤ (consumed ++ [token]).length := by
    intro name arity separators hmem
    have := h.separators name arity separators hmem
    omega
  have hclosed : ∀ opening outer, token.kind = .rbracket → n.openings = opening :: outer →
      (outer.length : Int) = excess (consumed ++ [token]) := by
    intro opening outer hkind hopen
    rw [hopen, List.length_cons] at hdepth
    rw [excess_append, excess_rbracket hkind, excess_nil, ← hdepth]
    omega
  cases htaken with
  | name hkind harity =>
    exact ⟨by simp, hposition, hinner (by simp [Token.Inner, hkind]), hkept⟩
  | opens hkind =>
    refine ⟨by simp, hposition, ?_, fun name arity separators hmem => ?_⟩
    · rw [excess_append, excess_lbracket hkind, excess_nil, List.length_cons]
      omega
    · rcases List.mem_cons.mp hmem with heq | hmem
      · unfold opening at heq
        split at heq <;> cases heq
        omega
      · exact hkept name arity separators hmem
  | closesGroup hkind hopen hcallee =>
    rw [hopen] at hkept
    exact ⟨by simp, hposition, hclosed _ _ hkind hopen, fun name arity separators hmem =>
      hkept name arity separators (List.mem_cons_of_mem _ hmem)⟩
  | closesCall hkind hopen hcallee =>
    rw [hopen] at hkept
    exact ⟨by simp, hposition, hclosed _ _ hkind hopen, fun name arity separators hmem =>
      hkept name arity separators (List.mem_cons_of_mem _ hmem)⟩
  | separates hkind hopen hcallee =>
    have hdepth := hinner (by simp [Token.Inner, hkind])
    have hcall := h.separators
    rw [hopen] at hdepth hkept hcall
    refine ⟨by simp, hposition, hdepth, fun name arity separators hmem => ?_⟩
    rcases List.mem_cons.mp hmem with heq | hmem
    · cases heq
      have := hcall _ _ _ List.mem_cons_self
      omega
    · exact hkept name arity separators (List.mem_cons_of_mem _ hmem)
  | plain hkind hcallee =>
    exact ⟨by simp, hposition, hinner (Token.inner_of_plain hkind).1, hkept⟩

theorem accounts_of_run {tokens : List Token} {n : Nesting}
    (hrun : initial.run table tokens = .ok n) : n.Announced ∧ n.Accounts tokens :=
  run_induction initial_accounts (fun _ _ _ _ _ h _ htaken => h.step htaken) hrun

/-! ### The calls of a nesting -/

theorem mem_of_mem_callsOf {openings : List Opening} {call : Call} (h : call ∈ callsOf openings) :
    .call call.name call.arity call.separators ∈ openings := by
  induction openings with
  | nil => cases h
  | cons opening outer ih =>
    cases opening with
    | group => exact List.mem_cons_of_mem _ (ih h)
    | call name arity separators =>
      rcases List.mem_cons.mp h with rfl | h
      · exact List.mem_cons_self
      · exact List.mem_cons_of_mem _ (ih h)

theorem callsOf_outward (openings : List Opening) :
    (callsOf openings).Pairwise fun inner outer => outer.outerDepth < inner.outerDepth := by
  induction openings with
  | nil => exact .nil
  | cons opening outer ih =>
    cases opening with
    | group => exact ih
    | call name arity separators => exact .cons (fun _ h => outerDepth_lt h) ih

end Nesting

/-! ### Sessions -/

/-- What the counters of a session say of the tokens that were consumed. -/
structure Session.Sound (consumed : List Token) (s : Session) : Prop where
  state : s.state = State.behind consumed
  position : s.position = consumed.length
  depth : (s.depth : Int) = excess consumed
  /-- Innermost first, a call further out was opened at a smaller depth. -/
  outward : s.calls.Pairwise fun inner outer => outer.outerDepth < inner.outerDepth
  below : ∀ call ∈ s.calls.tail, call.outerDepth < s.depth
  /-- Only right after its name has the innermost call its bracket still to come. -/
  top : ∀ call ∈ s.calls.head?, call.outerDepth ≤ s.depth ∧
    (call.outerDepth = s.depth ↔ s.state = .after .function)
  due : s.state = .after .function → s.calls ≠ []
  depth_le : s.depth ≤ consumed.length
  separators_le : ∀ call ∈ s.calls, call.separators ≤ consumed.length

theorem excess_le_length (tokens : List Token) : excess tokens ≤ tokens.length := by
  have hcount : countKind .lbracket tokens ≤ tokens.length := List.countP_le_length
  unfold excess
  omega

theorem Nesting.Accounts.sound {consumed : List Token} {n : Nesting} (h : n.Accounts consumed)
    (hannounced : n.Announced) : n.session.Sound consumed := by
  have hdepth := h.depth
  have hlength := excess_le_length consumed
  have hopen : ∀ call ∈ callsOf n.openings, call.separators ≤ consumed.length := fun call hcall =>
    h.separators call.name call.arity call.separators (mem_of_mem_callsOf hcall)
  have hbelow : ∀ call ∈ callsOf n.openings, call.outerDepth < n.openings.length :=
    fun call hcall => outerDepth_lt hcall
  have hle : n.openings.length ≤ consumed.length := by omega
  cases hc : n.callee with
  | none =>
    have hcalls : n.session.calls = callsOf n.openings := by simp [session, pendingCall, hc]
    have hstate : n.state ≠ .after .function := by
      intro hfunction
      have := hannounced.mpr hfunction
      rw [hc] at this
      cases this
    refine ⟨h.state, h.position, hdepth, ?_, ?_, ?_, fun hfunction => absurd hfunction hstate, hle, ?_⟩
    · rw [hcalls]
      exact callsOf_outward _
    · intro call hcall
      rw [hcalls] at hcall
      exact hbelow call (List.mem_of_mem_tail hcall)
    · intro call hcall
      rw [hcalls] at hcall
      have hlt := hbelow call (List.mem_of_mem_head? hcall)
      exact ⟨Nat.le_of_lt hlt, fun heq => absurd heq (Nat.ne_of_lt hlt), fun hfunction => absurd hfunction hstate⟩
    · intro call hcall
      rw [hcalls] at hcall
      exact hopen call hcall
  | some callee =>
    obtain ⟨name, arity⟩ := callee
    have hcalls : n.session.calls =
        ⟨name, arity, 0, n.openings.length⟩ :: callsOf n.openings := by
      simp [session, pendingCall, hc]
    have hstate : n.state = .after .function := hannounced.mp (by rw [hc]; rfl)
    refine ⟨h.state, h.position, hdepth, ?_, ?_, ?_, fun _ => ?_, hle, ?_⟩
    · rw [hcalls]
      exact .cons hbelow (callsOf_outward _)
    · intro call hcall
      rw [hcalls] at hcall
      exact hbelow call hcall
    · intro call hcall
      rw [hcalls] at hcall
      cases hcall
      exact ⟨Nat.le_refl _, fun _ => hstate, fun _ => rfl⟩
    · rw [hcalls]
      exact List.cons_ne_nil _ _
    · intro call hcall
      rw [hcalls] at hcall
      rcases List.mem_cons.mp hcall with rfl | hcall
      · exact Nat.zero_le _
      · exact hopen call hcall

namespace Session
variable {table : Dialect} {tokens : List Token} {s : Session}

theorem sound_of_run (hrun : initial.run .arithmetic table tokens = .ok s) : s.Sound tokens := by
  obtain ⟨n, hn, rfl⟩ := Nesting.exists_nesting hrun
  obtain ⟨hannounced, haccounts⟩ := Nesting.accounts_of_run hn
  exact haccounts.sound hannounced

/-- Where the input may end, no call is open. -/
theorem Sound.calls_eq_nil (h : s.Sound tokens) (hdepth : s.depth = 0)
    (haccepting : s.state.accepting = true) : s.calls = [] := by
  cases hc : s.calls with
  | nil => rfl
  | cons call outer =>
    obtain ⟨hle, hdue⟩ := h.top call (by rw [hc]; rfl)
    rw [hdue.mp (by omega)] at haccepting
    cases haccepting

theorem Sound.outerDepth_le (h : s.Sound tokens) {call : Call} (hcall : call ∈ s.calls) :
    call.outerDepth ≤ s.depth := by
  cases hc : s.calls with
  | nil => rw [hc] at hcall; cases hcall
  | cons top outer =>
    rw [hc] at hcall
    rcases List.mem_cons.mp hcall with rfl | hcall
    · exact (h.top call (by rw [hc]; rfl)).1
    · exact Nat.le_of_lt (h.below call (by rw [hc]; exact hcall))

theorem finish_eq_ok_iff (s : Session) :
    s.finish = .ok () ↔ s.depth = 0 ∧ s.state.accepting = true := by
  unfold finish
  split
  · next hopen => exact ⟨fun h => (nomatch h), fun h => absurd h.1 (Nat.ne_of_gt hopen)⟩
  · next hclosed =>
    split
    · next haccepting => exact ⟨fun _ => ⟨Nat.eq_zero_of_not_pos hclosed, haccepting⟩, fun _ => rfl⟩
    · next hrefused => exact ⟨fun h => (nomatch h), fun h => absurd h.2 hrefused⟩

/-- An accepted list is one whose run ends where the input may end. -/
theorem exists_run_of_accepted (h : (initial.run .arithmetic table tokens).bind finish = .ok ()) :
    ∃ s, initial.run .arithmetic table tokens = .ok s ∧ s.depth = 0 ∧ s.state.accepting = true := by
  obtain ⟨s, hrun, hfinish⟩ := bind_eq_ok_iff.mp h
  exact ⟨s, hrun, (finish_eq_ok_iff s).mp hfinish⟩

end Session

/-- **Every session of a scan is sound**, so no counter outgrows the input while a token is still
to come, a scan that may end has no open call, and none is left of one that ended well. -/
theorem Scanner.session_safe (table : Dialect) (session : Session) (tokens : List Token) :
    (∀ consumed rest s, tokens = consumed ++ rest →
      Session.initial.run .arithmetic table consumed = .ok s →
      s.Sound consumed ∧ (rest ≠ [] → s.depth + 1 ≤ tokens.length ∧ ∀ call ∈ s.calls,
        call.outerDepth + 1 ≤ tokens.length ∧ call.separators + 1 ≤ tokens.length)) ∧
    (∀ s, Session.initial.run .arithmetic table tokens = .ok s →
      s.depth = 0 → s.state.accepting = true → s.calls = []) ∧
    (((Scanner.mk .arithmetic table session).scan tokens).2.result = .ok () →
      let last := ((Scanner.mk .arithmetic table session).scan tokens).1.session
      last.depth = 0 ∧ last.state.accepting = true ∧ last.calls = []) := by
  refine ⟨fun consumed rest s htokens hrun => ?_, fun s hrun hdepth haccepting => ?_, fun hok => ?_⟩
  · have hsound := Session.sound_of_run hrun
    refine ⟨hsound, fun hrest => ?_⟩
    have hlength : consumed.length + 1 ≤ tokens.length := by
      have := List.length_pos_iff.mpr hrest
      rw [htokens, List.length_append]
      omega
    have hdepth := hsound.depth_le
    refine ⟨by omega, fun call hcall => ?_⟩
    have hseparators := hsound.separators_le call hcall
    have houter := hsound.outerDepth_le hcall
    exact ⟨by omega, by omega⟩
  · exact (Session.sound_of_run hrun).calls_eq_nil hdepth haccepting
  · obtain ⟨s, hrun, hdepth, haccepting⟩ := Session.exists_run_of_accepted hok
    have hlast : ((Scanner.mk .arithmetic table session).scan tokens).1.session = s :=
      Session.reached_of_run .arithmetic table hrun
    rw [hlast]
    exact ⟨hdepth, haccepting, (Session.sound_of_run hrun).calls_eq_nil hdepth haccepting⟩

/-- Of `sin((cos(x)))`, scanned up to the inner name: one call has its bracket open, the other's is due. -/
theorem Scanner.session_safe_nested :
    (Session.mk (.after .function) 4 2 [⟨"cos", 1, 0, 2⟩, ⟨"sin", 1, 0, 0⟩]).Sound
        [⟨.function, "sin"⟩, ⟨.lbracket, "("⟩, ⟨.lbracket, "("⟩, ⟨.function, "cos"⟩] ∧
      2 + 1 ≤ 9 :=
  have hsafe := (Scanner.session_safe .default .initial
    [⟨.function, "sin"⟩, ⟨.lbracket, "("⟩, ⟨.lbracket, "("⟩, ⟨.function, "cos"⟩, ⟨.lbracket, "("⟩,
      ⟨.var, "x"⟩, ⟨.rbracket, ")"⟩, ⟨.rbracket, ")"⟩, ⟨.rbracket, ")"⟩]).1
    [⟨.function, "sin"⟩, ⟨.lbracket, "("⟩, ⟨.lbracket, "("⟩, ⟨.function, "cos"⟩]
    [⟨.lbracket, "("⟩, ⟨.var, "x"⟩, ⟨.rbracket, ")"⟩, ⟨.rbracket, ")"⟩, ⟨.rbracket, ")"⟩]
    ⟨.after .function, 4, 2, [⟨"cos", 1, 0, 2⟩, ⟨"sin", 1, 0, 0⟩]⟩ rfl rfl
  ⟨hsafe.1, (hsafe.2 (List.cons_ne_nil _ _)).1⟩

end Formula
