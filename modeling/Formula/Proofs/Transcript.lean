import Formula.Proofs.Arguments
import Formula.Proofs.Verdicts

/-! The log of a scan.

For each token that the grammar lets pass a scan logs where it went, and for a bracket
that closes a call the call and its separators. Which calls those are is said here by
matching brackets alone (`linesAt`), and the log of any scan is exactly these lines, for
the tokens up to the one that was refused (`Session.exists_passed`). In an accepted list
every bracket is closed once, so every call is reported once, with as many arguments
as its function takes, and inner calls before outer ones (`Scanner.log_by_brackets`). -/
namespace Formula

/-! ### The lines of a token -/

/-- The innermost bracket that is open just before position `j`. -/
def enclosing? (tokens : List Token) (j : Nat) : Option Nat :=
  (List.range j).find? fun i => Encloses tokens i j

/-- The position of the bracket whose call is closed at position `j`, and the function before it. -/
def closedCall? (tokens : List Token) (j : Nat) : Option (Nat × Token) :=
  if kindAt tokens j = some .rbracket then
    (enclosing? tokens j).bind fun i => (lastFunction (tokens.take i)).map fun function => (i, function)
  else none

/-- What is to be logged for the token at position `j`: the state before it and its own, and the call
that it closes, if there is one. -/
def linesAt (tokens : List Token) (j : Nat) : List Event :=
  match tokens[j]? with
  | none => []
  | some token =>
    .transition (.behind (tokens.take j)) (.after token.kind) token.text ::
      match closedCall? tokens j with
      | some (i, function) => [.closing function.text (separatorsInside tokens i j)]
      | none => []

/-- The line of a call that is closed. -/
def Event.isClosing : Event → Bool
  | .closing .. => true
  | _ => false

section
variable {tokens : List Token} {function : Token} {i j : Nat}

theorem encloses_of_enclosing? (h : enclosing? tokens j = some i) : Encloses tokens i j := by
  unfold enclosing? at h
  have hfound := List.find?_some h
  exact of_decide_eq_true hfound

theorem enclosing?_eq_some_iff : enclosing? tokens j = some i ↔ Encloses tokens i j := by
  refine ⟨encloses_of_enclosing?, fun h => ?_⟩
  cases hfound : enclosing? tokens j with
  | none =>
    have hnone := List.find?_eq_none.mp hfound i (List.mem_range.mpr h.lt)
    exact absurd (decide_eq_true h) hnone
  | some other => rw [(encloses_of_enclosing? hfound).unique h]

theorem closedCall?_eq_some_iff : closedCall? tokens j = some (i, function) ↔
    kindAt tokens j = some .rbracket ∧ Encloses tokens i j ∧ lastFunction (tokens.take i) = some function := by
  unfold closedCall?
  split
  · next hright =>
    simp only [Option.bind_eq_some_iff, Option.map_eq_some_iff, Prod.mk.injEq, enclosing?_eq_some_iff]
    constructor
    · rintro ⟨k, henclosed, named, hlast, rfl, rfl⟩
      exact ⟨hright, henclosed, hlast⟩
    · rintro ⟨-, henclosed, hlast⟩
      exact ⟨i, henclosed, function, hlast, rfl, rfl⟩
  · next hother => exact ⟨fun h => (nomatch h), fun h => absurd h.1 hother⟩

/-- A call inside another one is closed before it. -/
theorem closedCall?_lt {inner : Token} {k a : Nat} (h : closedCall? tokens j = some (i, function))
    (h' : closedCall? tokens a = some (k, inner)) (hik : i < k) (hkj : k < j) : a < j :=
  (closedCall?_eq_some_iff.mp h).2.1.closing_lt (closedCall?_eq_some_iff.mp h').2.1 hik hkj

end

/-! ### One token -/

namespace Nesting
variable {table : Dialect} {tokens : List Token} {openings outer : List Opening} {j : Nat}

/-- A right bracket closes the call that a nesting has innermost. -/
theorem Located.closedCall?_of_call {name : String} {arity separators : Nat}
    (h : Located table tokens j (.call name arity separators :: outer)) (hright : kindAt tokens j = some .rbracket) :
    ∃ i function, closedCall? tokens j = some (i, function) ∧ function.text = name ∧
      separators = separatorsInside tokens i j := by
  obtain ⟨i, henclosed, ⟨function, hlast, hname, -, hcount⟩, -⟩ := h
  exact ⟨i, function, closedCall?_eq_some_iff.mpr ⟨hright, henclosed, hlast⟩, hname, hcount⟩

theorem Located.closedCall?_of_group (h : Located table tokens j openings)
    (hgroup : ∀ opening ∈ openings.head?, opening = .group) : closedCall? tokens j = none := by
  refine Option.eq_none_iff_forall_ne_some.mpr fun ⟨i, function⟩ hclosed => ?_
  obtain ⟨-, henclosed, hlast⟩ := closedCall?_eq_some_iff.mp hclosed
  obtain ⟨opening, outer, hopen, hdescribed⟩ := h.innermost henclosed
  rw [hgroup opening (by rw [hopen]; rfl)] at hdescribed
  rw [show lastFunction (tokens.take i) = none from hdescribed] at hlast
  cases hlast

end Nesting

namespace Session
variable {table : Dialect} {tokens : List Token} {token : Token} {s t next : Session} {error : Error} {j k : Nat}

/-- A token that the grammar lets pass is logged by the matching brackets. -/
theorem Reaches.events (h : s.Reaches table tokens j token) : s.events .arithmetic token = linesAt tokens j := by
  obtain ⟨hj, -⟩ := List.getElem?_eq_some_iff.mp h.here
  obtain ⟨n, hrun, rfl⟩ := Nesting.exists_nesting h.run
  obtain ⟨hannounced, haccounts⟩ := Nesting.accounts_of_run hrun
  have hlocated := Nesting.located_of_run hrun (Nat.le_of_lt hj)
  have hkind : kindAt tokens j = some token.kind := by rw [kindAt, h.here, Option.map_some]
  have hstate : n.session.state = State.behind (tokens.take j) := haccounts.state
  have hlegal := h.legal
  unfold Session.events linesAt
  rw [hstate, if_pos hlegal, h.here]
  refine congrArg (List.cons _) ?_
  by_cases hright : token.kind = .rbracket
  · rw [Grammar.arithmetic_accepts, ← haccounts.state, hright] at hlegal
    rw [hright] at hkind ⊢
    rw [Nesting.ownCall?_session (Nesting.callee_eq_none hannounced hlegal (by decide))]
    generalize n.openings = openings at hlocated
    cases openings with
    | nil => rw [hlocated.closedCall?_of_group fun _ hmem => absurd hmem (Option.not_mem_none _)]
    | cons opening outer =>
      cases opening with
      | group => rw [hlocated.closedCall?_of_group fun _ hmem => (Option.some.inj hmem).symm]
      | call name arity separators =>
        obtain ⟨i, function, hcall, hname, hcount⟩ := hlocated.closedCall?_of_call hkind
        simp only [hcall, hname, hcount]
  · have hnone : closedCall? tokens j = none := by
      unfold closedCall?
      rw [if_neg fun h => hright (Option.some.inj (hkind.symm.trans h))]
    rw [hnone]
    split
    · contradiction
    · rfl

/-- A token that is taken was let pass by the grammar. -/
theorem reaches_of_step (hrun : initial.run .arithmetic table (tokens.take j) = .ok s)
    (hat : tokens[j]? = some token) (hstep : s.step .arithmetic table token = .ok next) :
    s.Reaches table tokens j token := by
  refine ⟨hrun, hat, ?_⟩
  rw [Grammar.arithmetic_accepts, ← (sound_of_run hrun).state]
  exact (admits_of_step hstep).1

/-! ### Whole runs -/

/-- A run takes the token behind those that it has taken. -/
theorem exists_step_of_run (hrun : initial.run .arithmetic table (tokens.take (j + 1)) = .ok t)
    (hat : tokens[j]? = some token) :
    ∃ s, initial.run .arithmetic table (tokens.take j) = .ok s ∧ s.step .arithmetic table token = .ok t := by
  rw [List.take_add_one, hat] at hrun
  obtain ⟨s, hbefore, hlast⟩ := run_append_eq_ok_iff.mp hrun
  obtain ⟨next, hstep, hdone⟩ := run_cons_eq_ok_iff.mp hlast
  exact ⟨s, hbefore, hstep.trans hdone⟩

/-- Every token of a run that is taken was let pass by the grammar and taken. -/
theorem exists_reaches_of_run (hrun : initial.run .arithmetic table (tokens.take k) = .ok t)
    (hk : k ≤ tokens.length) (hj : j < k) :
    ∃ token s next, Reaches table tokens j token s ∧ s.step .arithmetic table token = .ok next := by
  have hat : tokens[j]? = some tokens[j] := List.getElem?_eq_getElem (Nat.lt_of_lt_of_le hj hk)
  obtain ⟨next, hnext⟩ := exists_run_of_prefix (List.take_prefix_take_left hj) hrun
  obtain ⟨s, hbefore, hstep⟩ := exists_step_of_run hnext hat
  exact ⟨_, s, next, reaches_of_step hbefore hat hstep, hstep⟩

theorem transcript_take (hrun : initial.run .arithmetic table (tokens.take k) = .ok s) (hk : k ≤ tokens.length) :
    initial.transcript .arithmetic table (tokens.take k) = (List.range k).flatMap (linesAt tokens) := by
  induction k generalizing s with
  | zero => rfl
  | succ k ih =>
    have hat : tokens[k]? = some tokens[k] := List.getElem?_eq_getElem hk
    obtain ⟨before, hbefore, hstep⟩ := exists_step_of_run hrun hat
    have hlast : before.transcript .arithmetic table [tokens[k]] = linesAt tokens k := by
      rw [← (reaches_of_step hbefore hat hstep).events]
      unfold Session.transcript
      rw [hstep]
      exact List.append_nil _
    rw [List.take_add_one, hat, transcript_append, hbefore, ih hbefore (Nat.le_of_succ_le hk), List.range_succ,
      List.flatMap_append, List.flatMap_singleton]
    exact congrArg _ hlast

/-- Of a run that fails, the lines end with those of the refused token. -/
theorem transcript_of_refused (hrun : initial.run .arithmetic table (tokens.take j) = .ok s)
    (hat : tokens[j]? = some token) (hrefused : s.step .arithmetic table token = .error error) :
    initial.transcript .arithmetic table tokens =
      (List.range j).flatMap (linesAt tokens) ++ s.events .arithmetic token := by
  obtain ⟨hj, -⟩ := List.getElem?_eq_some_iff.mp hat
  have hrest : s.transcript .arithmetic table (token :: tokens.drop (j + 1)) = s.events .arithmetic token := by
    unfold Session.transcript
    rw [hrefused]
    exact List.append_nil _
  have htranscript := transcript_append .arithmetic table initial (tokens.take j) (token :: tokens.drop (j + 1))
  rw [← eq_take_append_cons hat, hrun, transcript_take hrun (Nat.le_of_lt hj)] at htranscript
  exact htranscript.trans (congrArg _ hrest)

/-- Behind a token that is refused no token is reached. -/
theorem Reaches.le_of_refused {other : Token} (h : t.Reaches table tokens k other)
    (hrun : initial.run .arithmetic table (tokens.take j) = .ok s) (hat : tokens[j]? = some token)
    (hrefused : s.step .arithmetic table token = .error error) : k ≤ j := by
  refine Nat.le_of_not_lt fun hjk => ?_
  have htake : (tokens.take k).take j = tokens.take j := by
    rw [List.take_take, Nat.min_eq_left (Nat.le_of_lt hjk)]
  have hother : (tokens.take k)[j]? = some token := by rw [List.getElem?_take_of_lt hjk, hat]
  have hfails := run_of_refused (htake ▸ hrun) hother hrefused
  rw [h.run] at hfails
  cases hfails

/-- **The lines of a scan are those of the tokens that the grammar lets pass**, in their order. -/
theorem exists_passed (table : Dialect) (tokens : List Token) : ∃ passed ≤ tokens.length,
    (∀ j, j < passed ↔ ∃ token s, Reaches table tokens j token s) ∧
    initial.transcript .arithmetic table tokens = (List.range passed).flatMap (linesAt tokens) := by
  cases hrun : initial.run .arithmetic table tokens with
  | ok s =>
    rw [← List.take_length (l := tokens)] at hrun
    refine ⟨tokens.length, Nat.le_refl _, fun j => ⟨fun hj => ?_, fun ⟨token, s, hreaches⟩ => ?_⟩, ?_⟩
    · obtain ⟨token, s, next, hreaches, -⟩ := exists_reaches_of_run hrun (Nat.le_refl _) hj
      exact ⟨token, s, hreaches⟩
    · exact (List.getElem?_eq_some_iff.mp hreaches.here).1
    · have htranscript := transcript_take hrun (Nat.le_refl _)
      rwa [List.take_length] at htranscript
  | error error =>
    obtain ⟨k, refused, s, htaken, hat, hrefused⟩ := exists_refused hrun
    obtain ⟨hk, -⟩ := List.getElem?_eq_some_iff.mp hat
    have hbefore : ∀ j, j < k → ∃ token s, Reaches table tokens j token s := by
      intro j hj
      obtain ⟨token, s, next, hreaches, -⟩ := exists_reaches_of_run htaken (Nat.le_of_lt hk) hj
      exact ⟨token, s, hreaches⟩
    rw [transcript_of_refused htaken hat hrefused]
    by_cases hlegal : Grammar.arithmetic.accepts (State.behind (tokens.take k)) refused.kind = true
    · have hreaches : Reaches table tokens k refused s := ⟨htaken, hat, hlegal⟩
      refine ⟨k + 1, hk, fun j => ⟨fun hj => ?_, fun ⟨token, t, hother⟩ => ?_⟩, ?_⟩
      · rcases Nat.lt_succ_iff_lt_or_eq.mp hj with hj | rfl
        · exact hbefore j hj
        · exact ⟨refused, s, hreaches⟩
      · exact Nat.lt_succ_of_le (hother.le_of_refused htaken hat hrefused)
      · rw [hreaches.events, List.range_succ, List.flatMap_append, List.flatMap_singleton]
    · refine ⟨k, Nat.le_of_lt hk, fun j => ⟨hbefore j, fun ⟨token, t, hother⟩ => ?_⟩, ?_⟩
      · rcases Nat.lt_or_eq_of_le (hother.le_of_refused htaken hat hrefused) with hj | rfl
        · exact hj
        · have hsame : token = refused := Option.some.inj (hother.here.symm.trans hat)
          exact absurd (hsame ▸ hother.legal) hlegal
      · rw [events, (sound_of_run htaken).state, if_neg hlegal, List.append_nil]

/-! ### Each call once -/

theorem calls_of_ownCall? {call : Call} {outer : List Call} (h : s.ownCall? = some (call, outer)) :
    s.calls = call :: outer := by
  unfold Session.ownCall? at h
  split at h
  · next hcalls =>
    split at h
    · cases h
      exact hcalls
    · cases h
  · cases h

/-- A name opens a call, and a call is logged when it is no longer open. -/
theorem closings_of_step (h : s.step .arithmetic table token = .ok next) :
    (s.events .arithmetic token).countP Event.isClosing + next.calls.length =
      s.calls.length + if token.kind = .function then 1 else 0 := by
  unfold Session.step at h
  split at h
  · next hlegal =>
    unfold Session.events
    rw [if_pos hlegal]
    cases hk : token.kind with
    | function =>
      simp only [enter, hk] at h
      cases harity : table.arity token.text with
      | none => rw [harity] at h; cases h
      | some arity =>
        rw [harity] at h
        cases h
        exact Nat.zero_add _
    | rbracket =>
      simp only [enter, hk] at h
      split at h
      · cases h
      · split at h
        · next call outer hcall =>
          obtain ⟨closed, hclosed, rfl⟩ := map_eq_ok_iff.mp h
          obtain ⟨-, -, rfl⟩ := map_eq_ok_iff.mp hclosed
          rw [hcall, calls_of_ownCall? hcall]
          exact Nat.add_comm 1 _
        · next hcall =>
          cases h
          rw [hcall]
          exact Nat.zero_add _
    | separator =>
      simp only [enter, hk] at h
      split at h
      · next call outer hcall =>
        cases h
        rw [calls_of_ownCall? hcall]
        exact Nat.zero_add _
      · cases h
    | _ =>
      simp only [enter, hk] at h
      cases h
      exact Nat.zero_add _
  · cases h

/-- A run has logged the calls that were opened and are no longer open. -/
theorem closings_of_run (h : s.run .arithmetic table tokens = .ok t) :
    (s.transcript .arithmetic table tokens).countP Event.isClosing + t.calls.length =
      s.calls.length + countKind .function tokens := by
  induction tokens generalizing s with
  | nil =>
    cases h
    exact Nat.zero_add _
  | cons token rest ih =>
    obtain ⟨next, hstep, hlater⟩ := run_cons_eq_ok_iff.mp h
    have htoken := closings_of_step hstep
    have hrest := ih hlater
    rw [Session.transcript, hstep, List.countP_append, countKind_cons]
    simp only
    omega

/-- The bracket of a call comes right after its name. -/
theorem lbracket_of_function (hrun : initial.run .arithmetic table tokens = .ok s)
    (haccepting : s.state.accepting = true) {function : Token} (hat : tokens[k]? = some function)
    (hkind : function.kind = .function) : kindAt tokens (k + 1) = some .lbracket := by
  obtain ⟨hk, hfunction⟩ := List.getElem?_eq_some_iff.mp hat
  have hsplit : tokens.drop k = function :: tokens.drop (k + 1) := by
    rw [List.drop_eq_getElem_cons hk, hfunction]
  have hchain := (isChain_of_run hrun).drop k
  rw [hsplit] at hchain
  cases hnext : tokens[k + 1]? with
  | none =>
    -- The name would be the last token, and nothing ends behind a name.
    have hlength := List.getElem?_eq_none_iff.mp hnext
    have hlast : tokens.take k ++ [function] = tokens := by
      have hwhole := List.take_append_drop k tokens
      rwa [hsplit, List.drop_eq_nil_of_le hlength] at hwhole
    rw [(sound_of_run hrun).state, ← hlast, State.behind_append, hkind] at haccepting
    cases haccepting
  | some next =>
    have hadmits := (List.isChain_cons.mp hchain).1 next (by rw [List.head?_drop, hnext]; rfl)
    rw [hkind] at hadmits
    rw [kindAt, hnext, Option.map_some]
    exact congrArg some (eq_of_beq hadmits)

/-- In a list whose brackets are balanced one bracket closes the call of a name. -/
theorem existsUnique_closedCall? (hbalanced : Balanced tokens) {function : Token} (hat : tokens[k]? = some function)
    (hkind : function.kind = .function) (hleft : kindAt tokens (k + 1) = some .lbracket) :
    ∃! j, closedCall? tokens j = some (k + 1, function) := by
  obtain ⟨j, hright, henclosed⟩ := hbalanced.exists_closing hleft
  have hlast : lastFunction (tokens.take (k + 1)) = some function := by
    rw [List.take_add_one, hat]
    exact (lastFunction_append ..).trans (if_pos hkind)
  refine ⟨j, closedCall?_eq_some_iff.mpr ⟨hright, henclosed, hlast⟩, fun other hother => ?_⟩
  obtain ⟨hright', henclosed', -⟩ := closedCall?_eq_some_iff.mp hother
  exact henclosed'.closing_unique hright' henclosed hright

/-- A call that is closed in a run has as many arguments as its function takes. -/
theorem arity_of_closedCall? (hrun : initial.run .arithmetic table tokens = .ok s) {function : Token} {i : Nat}
    (h : closedCall? tokens j = some (i, function)) :
    table.arity function.text = some (separatorsInside tokens i j + 1) := by
  obtain ⟨hright, henclosed, hlast⟩ := closedCall?_eq_some_iff.mp h
  obtain ⟨right, hat, hkind⟩ := Option.map_eq_some_iff.mp hright
  obtain ⟨hj, -⟩ := List.getElem?_eq_some_iff.mp hat
  rw [← List.take_length (l := tokens)] at hrun
  obtain ⟨token, t, next, hreaches, hstep⟩ := exists_reaches_of_run hrun (Nat.le_refl _) hj
  obtain rfl : right = token := Option.some.inj (hat.symm.trans hreaches.here)
  obtain ⟨arity, harity, -, hmismatch⟩ := hreaches.closes_call hkind henclosed hlast rfl
  by_cases hcount : separatorsInside tokens i j + 1 = arity
  · rw [hcount]
    exact harity
  · rw [hmismatch hcount] at hstep
    cases hstep

end Session

namespace Scanner

/-- The log of a scan over a table, whatever the scanner has scanned before. -/
def scanLog (table : Dialect) (session : Session) (tokens : List Token) : List Event :=
  ((Scanner.mk .arithmetic table session).scan tokens).2.log

theorem scanLog_eq (table : Dialect) (session : Session) (tokens : List Token) :
    scanLog table session tokens = Session.initial.transcript .arithmetic table tokens ++
      match scanResult table session tokens with
      | .ok () => [.accepted tokens.length]
      | .error error => [.rejected error] := rfl

/-- **The log of a scan is told by the matching brackets.** For an accepted list it has the lines of every
token, each call is closed by one bracket, with as many arguments as its function takes and before a
call around it, and nothing else is closed. For a refused one it has the lines of the tokens that the
grammar let pass, and the refusal. -/
theorem log_by_brackets (table : Dialect) (session : Session) (tokens : List Token) :
    (scanResult table session tokens = .ok () →
      scanLog table session tokens =
        (List.range tokens.length).flatMap (linesAt tokens) ++ [.accepted tokens.length] ∧
      (∀ j i function, closedCall? tokens j = some (i, function) →
        table.arity function.text = some (separatorsInside tokens i j + 1)) ∧
      (∀ (k : Nat) function, tokens[k]? = some function → function.kind = .function →
        ∃! j, closedCall? tokens j = some (k + 1, function)) ∧
      (scanLog table session tokens).countP Event.isClosing = countKind .function tokens ∧
      ∀ j i function j' i' function', closedCall? tokens j = some (i, function) →
        closedCall? tokens j' = some (i', function') → i < i' → i' < j → j' < j) ∧
    ∀ error, scanResult table session tokens = .error error → ∃ passed ≤ tokens.length,
      (∀ j, j < passed ↔ ∃ token s, Session.Reaches table tokens j token s) ∧
      scanLog table session tokens = (List.range passed).flatMap (linesAt tokens) ++ [.rejected error] := by
  refine ⟨fun hok => ?_, fun error herror => ?_⟩
  · obtain ⟨s, hrun, hdepth, haccepting⟩ := Session.exists_run_of_accepted hok
    have hbalanced := Session.balanced_of_run hrun hdepth
    have htranscript := Session.transcript_take (k := tokens.length) (by rwa [List.take_length]) (Nat.le_refl _)
    rw [List.take_length] at htranscript
    have hclosings := Session.closings_of_run hrun
    rw [(Session.sound_of_run hrun).calls_eq_nil hdepth haccepting] at hclosings
    rw [scanLog_eq, hok]
    refine ⟨congrArg (· ++ _) htranscript, fun j i function h => Session.arity_of_closedCall? hrun h,
      fun k function hat hkind => ?_, ?_, fun j i function j' i' function' h h' => closedCall?_lt h h'⟩
    · exact Session.existsUnique_closedCall? hbalanced hat hkind
        (Session.lbracket_of_function hrun haccepting hat hkind)
    · rw [List.countP_append]
      exact hclosings.trans (Nat.zero_add _)
  · obtain ⟨passed, hpassed, hreached, htranscript⟩ := Session.exists_passed table tokens
    refine ⟨passed, hpassed, hreached, ?_⟩
    rw [scanLog_eq, herror, htranscript]

/-- Of the brackets that end `sin((cos(x)))` the first closes `cos`, the second a group and the third `sin`.
In `sin(x,y)` the call is closed, and then refused. -/
theorem log_by_brackets_nested :
    scanLog .default .initial [.function "sin", .lbracket, .lbracket, .function "cos", .lbracket, .var "x",
        .rbracket, .rbracket, .rbracket] =
      [.transition .start (.after .function) "sin", .transition (.after .function) (.after .lbracket) "(",
        .transition (.after .lbracket) (.after .lbracket) "(",
        .transition (.after .lbracket) (.after .function) "cos",
        .transition (.after .function) (.after .lbracket) "(", .transition (.after .lbracket) (.after .var) "x",
        .transition (.after .var) (.after .rbracket) ")", .closing "cos" 0,
        .transition (.after .rbracket) (.after .rbracket) ")",
        .transition (.after .rbracket) (.after .rbracket) ")", .closing "sin" 0, .accepted 9] ∧
    scanLog .default .initial [.function "sin", .lbracket, .var "x", .separator, .var "y", .rbracket] =
      [.transition .start (.after .function) "sin", .transition (.after .function) (.after .lbracket) "(",
        .transition (.after .lbracket) (.after .var) "x", .transition (.after .var) (.after .separator) ",",
        .transition (.after .separator) (.after .var) "y", .transition (.after .var) (.after .rbracket) ")",
        .closing "sin" 1, .rejected (.violation (.arityMismatch "sin" 1 2 .tooMany))] := by
  constructor
  · obtain ⟨hlog, -⟩ := (log_by_brackets .default .initial [.function "sin", .lbracket, .lbracket,
      .function "cos", .lbracket, .var "x", .rbracket, .rbracket, .rbracket]).1 rfl
    exact hlog.trans (by decide)
  · obtain ⟨passed, hpassed, hreached, hlog⟩ := (log_by_brackets .default .initial [.function "sin", .lbracket,
      .var "x", .separator, .var "y", .rbracket]).2 _ rfl
    have hlast : 5 < passed :=
      (hreached 5).mpr ⟨.rbracket, ⟨.after .var, 5, 1, [⟨"sin", 1, 1, 0⟩]⟩, rfl, rfl, by decide⟩
    obtain rfl : passed = 6 := Nat.le_antisymm hpassed hlast
    exact hlog.trans (by decide)

example : (scanLog .default .initial [.function "sin", .lbracket, .var "x", .rbracket]).map Event.line =
    ["TRACE start of expression -> function name on 'sin'", "TRACE function name -> left bracket on '('",
      "TRACE left bracket -> variable on 'x'", "TRACE variable -> right bracket on ')'",
      "TRACE closing call to sin with 0 separators", "DEBUG accepted 4 tokens"] := by
  decide

end Scanner

end Formula
