import Formula.Proofs.Refusal

/-! The arguments of a call, counted by matching brackets.

A scan counts the separators of each open call as they come. Here the call that a
closing bracket ends is found by counting brackets alone, and its arguments are the
separators directly inside that bracket, and one. The open brackets of a nesting are
exactly where counting finds them (`Nesting.Located`), which a token keeps by one
argument throughout: a balanced stretch of the list changes neither what encloses a
position nor the separators counted for it. So a closing bracket and a separator pass
exactly where the count says so (`Scanner.arity_by_brackets`). -/
namespace Formula

namespace Nesting
variable {table : Dialect} {tokens : List Token} {token : Token} {i j : Nat}
variable {opening : Opening} {openings outer : List Opening}

/-- What stands open since the bracket at `i`, seen from position `j`. -/
def Describes (table : Dialect) (tokens : List Token) (i j : Nat) : Opening → Prop
  | .group => lastFunction (tokens.take i) = none
  | .call name arity separators => ∃ function, lastFunction (tokens.take i) = some function ∧
    function.text = name ∧ table.arity name = some arity ∧ separators = separatorsInside tokens i j

/-- The brackets that counting finds open at position `j`, innermost first. -/
def Located (table : Dialect) (tokens : List Token) : Nat → List Opening → Prop
  | j, [] => Balanced (tokens.take j)
  | j, opening :: outer => ∃ i, Encloses tokens i j ∧ Describes table tokens i j opening ∧
    Located table tokens i outer

theorem Located.extend {a b : Nat} (h : Located table tokens a openings) (hab : a ≤ b)
    (hstretch : Balanced (between tokens a b))
    (hown : ∀ k, a ≤ k → k < b → kindAt tokens k = some .separator → excess (between tokens a k) ≠ 0) :
    Located table tokens b openings := by
  cases openings with
  | nil =>
    show Balanced (tokens.take b)
    rw [← between_zero, ← between_append (Nat.zero_le a) hab]
    exact Balanced.append h hstretch
  | cons opening outer =>
    obtain ⟨i, henclosed, hdescribed, houter⟩ := h
    refine ⟨i, henclosed.extend hab hstretch, ?_, houter⟩
    cases opening with
    | group => exact hdescribed
    | call name arity separators =>
      obtain ⟨function, hcallee, hname, harity, hcount⟩ := hdescribed
      refine ⟨function, hcallee, hname, harity, ?_⟩
      rw [hcount, separatorsInside_extend henclosed hab hown]

theorem Located.pass (h : Located table tokens j openings) (hat : tokens[j]? = some token)
    (hinner : token.Inner) (hkind : token.kind ≠ .separator) :
    Located table tokens (j + 1) openings := by
  refine h.extend (Nat.le_succ j) (balanced_between_succ hat hinner) fun k hjk hkj hseparator => ?_
  obtain rfl : k = j := by omega
  rw [kindAt, hat] at hseparator
  exact absurd (Option.some.inj hseparator) hkind

theorem Located.separates {name : String} {arity separators : Nat}
    (h : Located table tokens j (.call name arity separators :: outer))
    (hat : tokens[j]? = some token) (hkind : token.kind = .separator) :
    Located table tokens (j + 1) (.call name arity (separators + 1) :: outer) := by
  obtain ⟨i, henclosed, ⟨function, hcallee, hname, harity, hcount⟩, houter⟩ := h
  have hinner : token.Inner := by simp [Token.Inner, hkind]
  have hcounted : kindAt tokens j = some .separator := by rw [kindAt, hat, ← hkind]; rfl
  refine ⟨i, henclosed.extend (Nat.le_succ j) (balanced_between_succ hat hinner),
    ⟨function, hcallee, hname, harity, ?_⟩, houter⟩
  rw [separatorsInside_succ, if_pos ⟨hcounted, henclosed⟩, hcount]

/-- A group that is closed is a balanced stretch, and its separators are not those of a call around it. -/
theorem Located.closes (h : Located table tokens j (opening :: outer))
    (hat : tokens[j]? = some token) (hkind : token.kind = .rbracket) :
    Located table tokens (j + 1) outer := by
  obtain ⟨i, henclosed, -, houter⟩ := h
  have hij := henclosed.lt
  refine houter.extend (by omega) ?_ fun k hik hkj hseparator => ?_
  · obtain ⟨left, hleftAt, hleft⟩ := Option.map_eq_some_iff.mp henclosed.opens
    rw [between_cons hleftAt (Nat.lt_succ_of_lt hij), between_snoc hat hij]
    exact henclosed.inside.group hleft hkind
  · rcases Nat.eq_or_lt_of_le hik with rfl | hlt
    · rw [henclosed.opens] at hseparator
      cases hseparator
    · have hinside := henclosed.inside.excess_between hlt (Nat.le_of_lt_succ hkj)
      rw [excess_between_lbracket henclosed.opens hlt]
      omega

/-- Counting finds the innermost open bracket that the nesting has. -/
theorem Located.innermost (h : Located table tokens j openings) (henclosed : Encloses tokens i j) :
    ∃ opening outer, openings = opening :: outer ∧ Describes table tokens i j opening := by
  cases openings with
  | nil => exact absurd henclosed.unclosed (Balanced.not_unclosed h)
  | cons opening outer =>
    obtain ⟨i', henclosed', hdescribed, -⟩ := h
    obtain rfl := henclosed.unique henclosed'
    exact ⟨opening, outer, rfl, hdescribed⟩

/-! ### What a run keeps -/

/-- In any list that starts with the consumed tokens, the open brackets are where counting finds them. -/
structure Placed (table : Dialect) (consumed : List Token) (n : Nesting) : Prop where
  named : ∀ name arity, n.callee = some (name, arity) →
    ∃ function, lastFunction consumed = some function ∧ function.text = name ∧
      table.arity name = some arity
  unnamed : n.callee = none → lastFunction consumed = none
  located : ∀ tokens, consumed <+: tokens → Located table tokens consumed.length n.openings

theorem initial_placed : initial.Placed table [] :=
  ⟨fun _ _ h => (nomatch h), fun _ => rfl, fun _ _ => balanced_nil⟩

/-- The bracket after the consumed tokens is that of the function they end with. -/
theorem Placed.describes_opening {consumed : List Token} {n : Nesting} (h : n.Placed table consumed)
    (hbefore : tokens.take j = consumed) : Describes table tokens j (j + 1) n.opening := by
  unfold opening
  split
  · next name arity hcallee =>
    obtain ⟨function, hlast, hname, harity⟩ := h.named name arity hcallee
    refine ⟨function, ?_, hname, harity, (separatorsInside_opened tokens j).symm⟩
    rw [hbefore, hlast]
  · next hcallee =>
    show lastFunction (tokens.take j) = none
    rw [hbefore, h.unnamed hcallee]

/-- With no bracket due, the open brackets are all there is to find. -/
theorem Placed.of_unnamed {consumed : List Token} {n : Nesting} (hcallee : n.callee = none)
    (hkind : token.kind ≠ .function) (hlocated : ∀ tokens, consumed ++ [token] <+: tokens →
      Located table tokens (consumed.length + 1) n.openings) :
    n.Placed table (consumed ++ [token]) := by
  refine ⟨fun name arity hnamed => ?_, fun _ => by simp [hkind], fun tokens hstart => ?_⟩
  · rw [hcallee] at hnamed
    cases hnamed
  · have hlength : (consumed ++ [token]).length = consumed.length + 1 := by simp
    rw [hlength]
    exact hlocated tokens hstart

theorem Placed.step {consumed : List Token} {n next : Nesting} (h : n.Placed table consumed)
    (htaken : Taken table token n next) : next.Placed table (consumed ++ [token]) := by
  have hpast : ∀ tokens, consumed ++ [token] <+: tokens →
      Located table tokens consumed.length n.openings ∧ tokens[consumed.length]? = some token ∧
        tokens.take consumed.length = consumed := by
    rintro tokens ⟨rest, rfl⟩
    exact ⟨h.located _ ⟨[token] ++ rest, by simp⟩, by simp, by simp⟩
  have hclosed : ∀ opening outer, token.kind = .rbracket → n.openings = opening :: outer →
      ∀ tokens, consumed ++ [token] <+: tokens →
        Located table tokens (consumed.length + 1) outer := by
    intro opening outer hkind hopen tokens hstart
    obtain ⟨hlocated, hat, -⟩ := hpast tokens hstart
    rw [hopen] at hlocated
    exact hlocated.closes hat hkind
  cases htaken with
  | @name arity hkind harity =>
    refine ⟨fun name arity' heq => ?_, fun hcallee => (nomatch hcallee), fun tokens hstart => ?_⟩
    · cases heq
      exact ⟨token, by simp [hkind], rfl, harity⟩
    · obtain ⟨hlocated, hat, -⟩ := hpast tokens hstart
      have hlength : (consumed ++ [token]).length = consumed.length + 1 := by simp
      rw [hlength]
      exact hlocated.pass hat (by simp [Token.Inner, hkind]) (by simp [hkind])
  | opens hkind =>
    refine .of_unnamed rfl (by simp [hkind]) fun tokens hstart => ?_
    obtain ⟨hlocated, hat, hbefore⟩ := hpast tokens hstart
    have hopens : kindAt tokens consumed.length = some .lbracket := by rw [kindAt, hat, ← hkind]; rfl
    exact ⟨consumed.length, encloses_succ hopens, h.describes_opening hbefore, hlocated⟩
  | closesGroup hkind hopen hcallee =>
    exact .of_unnamed rfl (by simp [hkind]) (hclosed _ _ hkind hopen)
  | closesCall hkind hopen hcallee =>
    exact .of_unnamed rfl (by simp [hkind]) (hclosed _ _ hkind hopen)
  | separates hkind hopen hcallee =>
    refine .of_unnamed rfl (by simp [hkind]) fun tokens hstart => ?_
    obtain ⟨hlocated, hat, -⟩ := hpast tokens hstart
    rw [hopen] at hlocated
    exact hlocated.separates hat hkind
  | plain hkind hcallee =>
    obtain ⟨hinner, hseparator, hfunction⟩ := Token.inner_of_plain hkind
    refine .of_unnamed rfl hfunction fun tokens hstart => ?_
    obtain ⟨hlocated, hat, -⟩ := hpast tokens hstart
    exact hlocated.pass hat hinner hseparator

theorem placed_of_run {n : Nesting} (hrun : initial.run table tokens = .ok n) :
    n.Announced ∧ n.Placed table tokens :=
  run_induction initial_placed (fun _ _ _ _ _ h _ htaken => h.step htaken) hrun

theorem located_of_run {n : Nesting} (hrun : initial.run table (tokens.take j) = .ok n)
    (hj : j ≤ tokens.length) : Located table tokens j n.openings := by
  have hlocated := (placed_of_run hrun).2.located tokens (List.take_prefix j tokens)
  rwa [List.length_take, Nat.min_eq_left hj] at hlocated

/-- An argument is only ever missed, or too much, at the bracket that closes its call. -/
theorem enter_mismatch {n : Nesting} {function : String} {expected actual : Nat} {mismatch : Mismatch}
    (h : n.enter table token =
      .error (.violation (.arityMismatch function expected actual mismatch))) :
    token.kind = .rbracket ∧ ∃ separators outer, n.openings = .call function expected separators :: outer ∧
      actual = separators + 1 ∧ actual ≠ expected ∧
      mismatch = if actual < expected then .tooFew else .tooMany := by
  unfold enter at h
  split at h
  · split at h <;> cases h
  · cases h
  · next hkind =>
    split at h
    · cases h
    · cases h
    · next name arity separators outer hopen =>
      unfold checkArity at h
      split at h
      · cases h
      · next hne =>
        cases h
        exact ⟨hkind, separators, outer, hopen, rfl, fun heq => hne heq.symm, rfl⟩
  · split at h <;> cases h
  · cases h

end Nesting

/-! ### Tokens that the grammar lets pass -/

namespace Session

/-- The tokens before position `j` are taken, and the grammar lets the one at `j` pass. -/
structure Reaches (table : Dialect) (tokens : List Token) (j : Nat) (token : Token) (s : Session) :
    Prop where
  run : initial.run .arithmetic table (tokens.take j) = .ok s
  here : tokens[j]? = some token
  legal : Grammar.arithmetic.accepts (State.behind (tokens.take j)) token.kind = true

variable {table : Dialect} {tokens : List Token} {token : Token} {i j : Nat} {s : Session}

/-- Behind the session is a nesting that takes the token alike, and counting finds its open brackets. -/
theorem Reaches.exists_nesting (h : s.Reaches table tokens j token) :
    ∃ n : Nesting, Nesting.Located table tokens j n.openings ∧
      n.state = State.behind (tokens.take j) ∧ n.position = j ∧
      s.step .arithmetic table token =
        (n.enter table token).map fun next => (next.advance token.kind).session := by
  obtain ⟨hj, -⟩ := List.getElem?_eq_some_iff.mp h.here
  obtain ⟨n, hrun, rfl⟩ := Nesting.exists_nesting h.run
  obtain ⟨hannounced, haccounts⟩ := Nesting.accounts_of_run hrun
  have hposition : n.position = j := haccounts.position_take (Nat.le_of_lt hj)
  refine ⟨n, Nesting.located_of_run hrun (Nat.le_of_lt hj), haccounts.state, hposition, ?_⟩
  have hlegal := h.legal
  rw [← haccounts.state] at hlegal
  rw [Nesting.step_session table hannounced token, Nesting.step, if_pos hlegal]
  cases n.enter table token with
  | error e => rfl
  | ok next => rfl

/-- A call may be closed exactly behind as many arguments as its function takes. -/
theorem Reaches.closes_call (h : s.Reaches table tokens j token) (hkind : token.kind = .rbracket)
    (henclosed : Encloses tokens i j) {function : Token} {actual : Nat}
    (hlast : lastFunction (tokens.take i) = some function)
    (hactual : actual = separatorsInside tokens i j + 1) :
    ∃ arity, table.arity function.text = some arity ∧
      (actual = arity → ∃ next, s.step .arithmetic table token = .ok next) ∧
      (actual ≠ arity → s.step .arithmetic table token = .error (.violation
        (.arityMismatch function.text arity actual (if actual < arity then .tooFew else .tooMany)))) := by
  obtain ⟨n, hlocated, -, -, hstep⟩ := h.exists_nesting
  obtain ⟨opening, outer, hopen, hdescribed⟩ := hlocated.innermost henclosed
  cases opening with
  | group => rw [show _ = none from hdescribed] at hlast; cases hlast
  | call name arity separators =>
    obtain ⟨function', hlast', rfl, harity, hcount⟩ := hdescribed
    obtain rfl : function' = function := Option.some.inj (hlast'.symm.trans hlast)
    rw [← hcount] at hactual
    refine ⟨arity, harity, fun heq => ?_, fun hne => ?_⟩
    · have hcheck : checkArity function'.text arity (separators + 1) = .ok () := by
        rw [← hactual, heq]
        exact if_pos rfl
      rw [hstep]
      simp only [Nesting.enter, hkind, hopen, hcheck, Except.map]
      exact ⟨_, rfl⟩
    · have hcheck : checkArity function'.text arity (separators + 1) = .error (.violation
          (.arityMismatch function'.text arity actual (if actual < arity then .tooFew else .tooMany))) := by
        rw [← hactual]
        exact if_neg (Ne.symm hne)
      rw [hstep]
      simp only [Nesting.enter, hkind, hopen, hcheck, Except.map]

theorem Reaches.closes_group (h : s.Reaches table tokens j token) (hkind : token.kind = .rbracket)
    (henclosed : Encloses tokens i j) (hlast : lastFunction (tokens.take i) = none) :
    ∃ next, s.step .arithmetic table token = .ok next := by
  obtain ⟨n, hlocated, -, -, hstep⟩ := h.exists_nesting
  obtain ⟨opening, outer, hopen, hdescribed⟩ := hlocated.innermost henclosed
  cases opening with
  | call name arity separators =>
    obtain ⟨function, hlast', -⟩ := hdescribed
    rw [hlast] at hlast'
    cases hlast'
  | group =>
    rw [hstep]
    simp only [Nesting.enter, hkind, hopen, Except.map]
    exact ⟨_, rfl⟩

/-- A separator stands directly inside the bracket of a call, or it is refused where it is. -/
theorem Reaches.separates (h : s.Reaches table tokens j token) (hkind : token.kind = .separator) :
    ((∃ i, Encloses tokens i j ∧ (lastFunction (tokens.take i)).isSome) →
      ∃ next, s.step .arithmetic table token = .ok next) ∧
    ((¬ ∃ i, Encloses tokens i j ∧ (lastFunction (tokens.take i)).isSome) →
      s.step .arithmetic table token = .error (.violation
        (.unexpectedToken (some token) (State.behind (tokens.take j)) j))) := by
  obtain ⟨n, hlocated, hstate, hposition, hstep⟩ := h.exists_nesting
  refine ⟨fun ⟨i, henclosed, hcall⟩ => ?_, fun hnone => ?_⟩
  · obtain ⟨opening, outer, hopen, hdescribed⟩ := hlocated.innermost henclosed
    cases opening with
    | group => rw [show _ = none from hdescribed] at hcall; cases hcall
    | call name arity separators =>
      rw [hstep]
      simp only [Nesting.enter, hkind, hopen, Except.map]
      exact ⟨_, rfl⟩
  · have hrefused : n.enter table token = .error (n.unexpected (some token)) := by
      cases hopen : n.openings with
      | nil => simp only [Nesting.enter, hkind, hopen]
      | cons opening outer =>
        cases opening with
        | group => simp only [Nesting.enter, hkind, hopen]
        | call name arity separators =>
          rw [hopen] at hlocated
          obtain ⟨i, henclosed, ⟨function, hlast, -⟩, -⟩ := hlocated
          exact absurd ⟨i, henclosed, by rw [hlast]; rfl⟩ hnone
    rw [hstep, hrefused, Nesting.unexpected, hstate, hposition]
    rfl

/-- What is refused for another cause than being unexpected is a token that the grammar lets pass. -/
theorem exists_reaches {error : Error} (hrun : initial.run .arithmetic table tokens = .error error)
    (hcause : ∀ token? state position, error ≠ .violation (.unexpectedToken token? state position)) :
    ∃ j token s, Reaches table tokens j token s ∧ s.step .arithmetic table token = .error error := by
  obtain ⟨j, token, s, htaken, hat, hrefused⟩ := exists_refused hrun
  refine ⟨j, token, s, ⟨htaken, hat, ?_⟩, hrefused⟩
  rw [← (sound_of_run htaken).state]
  by_cases hlegal : Grammar.arithmetic.accepts s.state token.kind = true
  · exact hlegal
  · rw [step, if_neg hlegal] at hrefused
    exact absurd (Except.error.inj hrefused).symm (hcause _ _ _)

/-- A scan that ends in an arity mismatch has met the closing bracket of such a call. -/
theorem exists_mismatch {function : String} {expected actual : Nat} {mismatch : Mismatch}
    (h : (initial.run .arithmetic table tokens).bind finish =
      .error (.violation (.arityMismatch function expected actual mismatch))) :
    ∃ (j : Nat) (right : Token) (s : Session) (i : Nat) (name : Token),
      s.Reaches table tokens j right ∧ right.kind = .rbracket ∧ Encloses tokens i j ∧
      lastFunction (tokens.take i) = some name ∧ name.text = function ∧
      table.arity function = some expected ∧ actual = separatorsInside tokens i j + 1 ∧
      actual ≠ expected ∧ mismatch = if actual < expected then .tooFew else .tooMany := by
  obtain ⟨j, token, s, hreaches, hrefused⟩ :=
    exists_reaches (run_of_not_atEnd h rfl) (fun _ _ _ hcause => nomatch hcause)
  obtain ⟨n, hlocated, -, -, hstep⟩ := hreaches.exists_nesting
  rw [hstep] at hrefused
  obtain ⟨hkind, separators, outer, hopen, hactual, hne, hmismatch⟩ :=
    Nesting.enter_mismatch (map_eq_error_iff.mp hrefused)
  rw [hopen] at hlocated
  obtain ⟨i, henclosed, ⟨name, hlast, hname, harity, hcount⟩, -⟩ := hlocated
  rw [hcount] at hactual
  exact ⟨j, token, s, i, name, hreaches, hkind, henclosed, hlast, hname, harity, hactual, hne, hmismatch⟩

end Session

/-- **Arguments are counted by matching brackets**: a closing bracket is refused exactly if the call
that it ends has a wrong number of separators directly inside, a separator exactly if no call's bracket
is the innermost open one, a refusal ends the scan, and no scan ends in a mismatch otherwise. -/
theorem Scanner.arity_by_brackets (table : Dialect) (session : Session) (tokens : List Token) :
    (∀ (j : Nat) (right : Token) (s : Session) (i : Nat), s.Reaches table tokens j right →
      right.kind = .rbracket → Encloses tokens i j →
      (∀ function actual, lastFunction (tokens.take i) = some function →
        actual = separatorsInside tokens i j + 1 →
        ∃ arity, table.arity function.text = some arity ∧
          (actual = arity → ∃ next, s.step .arithmetic table right = .ok next) ∧
          (actual ≠ arity → s.step .arithmetic table right = .error (.violation (.arityMismatch
            function.text arity actual (if actual < arity then .tooFew else .tooMany))))) ∧
      (lastFunction (tokens.take i) = none → ∃ next, s.step .arithmetic table right = .ok next)) ∧
    (∀ (k : Nat) (separator : Token) (s : Session), s.Reaches table tokens k separator →
      separator.kind = .separator →
      ((∃ i, Encloses tokens i k ∧ (lastFunction (tokens.take i)).isSome) →
        ∃ next, s.step .arithmetic table separator = .ok next) ∧
      ((¬ ∃ i, Encloses tokens i k ∧ (lastFunction (tokens.take i)).isSome) →
        s.step .arithmetic table separator = .error (.violation
          (.unexpectedToken (some separator) (State.behind (tokens.take k)) k)))) ∧
    (∀ (j : Nat) (token : Token) (s : Session) (error : Error), s.Reaches table tokens j token →
      s.step .arithmetic table token = .error error →
      ((Scanner.mk .arithmetic table session).scan tokens).2.result = .error error) ∧
    (∀ function expected actual mismatch,
      ((Scanner.mk .arithmetic table session).scan tokens).2.result =
        .error (.violation (.arityMismatch function expected actual mismatch)) →
      ∃ (j : Nat) (right : Token) (s : Session) (i : Nat) (name : Token),
        s.Reaches table tokens j right ∧ right.kind = .rbracket ∧ Encloses tokens i j ∧
        lastFunction (tokens.take i) = some name ∧ name.text = function ∧
        table.arity function = some expected ∧ actual = separatorsInside tokens i j + 1 ∧
        actual ≠ expected ∧ mismatch = if actual < expected then .tooFew else .tooMany) := by
  refine ⟨fun j right s i hreaches hkind henclosed => ⟨fun function actual hlast hactual => ?_,
    fun hlast => ?_⟩, fun k separator s hreaches hkind => ?_, fun j token s error hreaches hrefused => ?_,
    fun function expected actual mismatch hresult => ?_⟩
  · exact hreaches.closes_call hkind henclosed hlast hactual
  · exact hreaches.closes_group hkind henclosed hlast
  · exact hreaches.separates hkind
  · show (Session.initial.run .arithmetic table tokens).bind Session.finish = .error error
    rw [Session.run_of_refused hreaches.run hreaches.here hrefused]
    rfl
  · exact Session.exists_mismatch hresult

/-- In `sin(cos(x),y)` the last bracket ends a call with two arguments, one of them a call. -/
theorem Scanner.arity_by_brackets_nested :
    ((Scanner.ofTable .default).scan [⟨.function, "sin"⟩, ⟨.lbracket, "("⟩, ⟨.function, "cos"⟩,
        ⟨.lbracket, "("⟩, ⟨.var, "x"⟩, ⟨.rbracket, ")"⟩, ⟨.separator, ","⟩, ⟨.var, "y"⟩,
        ⟨.rbracket, ")"⟩]).2.result =
      .error (.violation (.arityMismatch "sin" 1 2 .tooMany)) := by
  obtain ⟨hcloses, -, hends, -⟩ := Scanner.arity_by_brackets .default .initial
    [⟨.function, "sin"⟩, ⟨.lbracket, "("⟩, ⟨.function, "cos"⟩, ⟨.lbracket, "("⟩, ⟨.var, "x"⟩,
      ⟨.rbracket, ")"⟩, ⟨.separator, ","⟩, ⟨.var, "y"⟩, ⟨.rbracket, ")"⟩]
  obtain ⟨arity, harity, -, hrefused⟩ := (hcloses 8 ⟨.rbracket, ")"⟩
    ⟨.after .var, 8, 1, [⟨"sin", 1, 1, 0⟩]⟩ 1 ⟨rfl, rfl, rfl⟩ rfl (by decide)).1
    ⟨.function, "sin"⟩ 2 rfl (by decide)
  obtain rfl : 1 = arity := Option.some.inj harity
  exact hends 8 ⟨.rbracket, ")"⟩ ⟨.after .var, 8, 1, [⟨"sin", 1, 1, 0⟩]⟩ _ ⟨rfl, rfl, rfl⟩
    (hrefused (by decide))

end Formula
