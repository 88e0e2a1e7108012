import Mathlib.Data.Nat.Init
import Formula.State

/-! Brackets by counting.

Nothing here scans: how many brackets a list leaves open is a difference of two
counts, a list is balanced if no prefix closes more than it opens and all that is
opened is closed, and the innermost bracket that is open at a position is the one
that has nothing but a balanced list between itself and the position (`Encloses`).
There is at most one (`Encloses.unique`), and in a balanced list each bracket is closed by
exactly one (`Balanced.exists_closing`, `Encloses.closing_unique`). -/
namespace Formula

/-- How many tokens of a kind there are. -/
def countKind (kind : TokenKind) (tokens : List Token) : Nat := tokens.countP (·.kind == kind)

/-- Left brackets less right brackets. -/
def excess (tokens : List Token) : Int :=
  (countKind .lbracket tokens : Int) - countKind .rbracket tokens

def kindAt (tokens : List Token) (i : Nat) : Option TokenKind := tokens[i]?.map Token.kind

/-- A token stands between what comes before it and what comes after it. -/
theorem eq_take_append_cons {tokens : List Token} {i : Nat} {token : Token} (hat : tokens[i]? = some token) :
    tokens = tokens.take i ++ token :: tokens.drop (i + 1) := by
  obtain ⟨hi, rfl⟩ := List.getElem?_eq_some_iff.mp hat
  rw [← List.drop_eq_getElem_cons hi, List.take_append_drop]

/-- Where a scan of these tokens stands. -/
def State.behind (tokens : List Token) : State :=
  match tokens.getLast? with
  | none => .start
  | some token => .after token.kind

/-- The function name that the tokens end with. -/
def lastFunction (tokens : List Token) : Option Token := tokens.getLast?.filter (·.kind == .function)

@[simp] theorem State.behind_nil : State.behind [] = .start := rfl

@[simp] theorem State.behind_append (tokens : List Token) (token : Token) :
    State.behind (tokens ++ [token]) = .after token.kind := by
  simp [behind]

@[simp] theorem lastFunction_append (tokens : List Token) (token : Token) :
    lastFunction (tokens ++ [token]) = if token.kind = .function then some token else none := by
  by_cases h : token.kind = .function
  · simp [lastFunction, h]
  · simp [lastFunction, h]

@[simp] theorem countKind_nil (kind : TokenKind) : countKind kind [] = 0 := rfl

@[simp] theorem countKind_cons (kind : TokenKind) (token : Token) (tokens : List Token) :
    countKind kind (token :: tokens) = (if token.kind = kind then 1 else 0) + countKind kind tokens := by
  by_cases h : token.kind = kind
  · simp [countKind, h, Nat.add_comm]
  · simp [countKind, h]

@[simp] theorem countKind_append (kind : TokenKind) (a b : List Token) :
    countKind kind (a ++ b) = countKind kind a + countKind kind b :=
  List.countP_append

@[simp] theorem excess_nil : excess [] = 0 := rfl

@[simp] theorem excess_append (a b : List Token) : excess (a ++ b) = excess a + excess b := by
  simp only [excess, countKind_append]
  omega

theorem excess_lbracket {left : Token} (h : left.kind = .lbracket) (tokens : List Token) :
    excess (left :: tokens) = excess tokens + 1 := by
  simp only [excess, countKind_cons, h, reduceCtorEq, if_true, if_false]
  omega

theorem excess_rbracket {right : Token} (h : right.kind = .rbracket) (tokens : List Token) :
    excess (right :: tokens) = excess tokens - 1 := by
  simp only [excess, countKind_cons, h, reduceCtorEq, if_true, if_false]
  omega

/-- A token that is no bracket. -/
def Token.Inner (token : Token) : Prop := token.kind ≠ .lbracket ∧ token.kind ≠ .rbracket

theorem Token.inner_of_plain {token : Token}
    (h : token.kind.isLeaf ∨ token.kind = .binary ∨ token.kind = .unary) :
    token.Inner ∧ token.kind ≠ .separator ∧ token.kind ≠ .function := by
  cases hk : token.kind <;> simp_all [Token.Inner, TokenKind.isLeaf]

theorem excess_inner {token : Token} (h : token.Inner) (tokens : List Token) :
    excess (token :: tokens) = excess tokens := by
  simp only [excess, countKind_cons, if_neg h.1, if_neg h.2, Nat.zero_add]

/-! ### Balanced lists -/

structure Balanced (tokens : List Token) : Prop where
  total : excess tokens = 0
  ahead : ∀ n, 0 ≤ excess (tokens.take n)

theorem Balanced.excess_prefix {a b : List Token} (h : Balanced (a ++ b)) : 0 ≤ excess a := by
  have := h.ahead a.length
  rwa [List.take_left] at this

theorem balanced_nil : Balanced [] := ⟨rfl, fun n => by simp⟩

theorem balanced_inner {token : Token} (h : token.Inner) : Balanced [token] := by
  refine ⟨by rw [excess_inner h, excess_nil], fun n => ?_⟩
  cases n with
  | zero => exact Int.le_refl 0
  | succ n =>
    rw [List.take_succ_cons, List.take_nil, excess_inner h]
    exact Int.le_refl 0

theorem Balanced.append {a b : List Token} (ha : Balanced a) (hb : Balanced b) :
    Balanced (a ++ b) := by
  refine ⟨by rw [excess_append, ha.total, hb.total, Int.zero_add], fun n => ?_⟩
  rw [List.take_append, excess_append]
  exact Int.add_nonneg (ha.ahead n) (hb.ahead _)

theorem Balanced.group {inner : List Token} (h : Balanced inner) {left right : Token}
    (hleft : left.kind = .lbracket) (hright : right.kind = .rbracket) :
    Balanced (left :: (inner ++ [right])) := by
  have hlast : ∀ m, -1 ≤ excess ([right].take m) := by
    intro m
    cases m with
    | zero =>
      rw [List.take_zero]
      decide
    | succ m =>
      rw [List.take_succ_cons, List.take_nil, excess_rbracket hright]
      decide
  refine ⟨?_, fun n => ?_⟩
  · rw [excess_lbracket hleft, excess_append, h.total, excess_rbracket hright, excess_nil]
    omega
  · cases n with
    | zero => exact Int.le_refl 0
    | succ n =>
      have hinner := h.ahead n
      have hright := hlast (n - inner.length)
      rw [List.take_succ_cons, excess_lbracket hleft, List.take_append, excess_append]
      omega

instance (tokens : List Token) : Decidable (Balanced tokens) :=
  decidable_of_iff (excess tokens = 0 ∧ ∀ n ≤ tokens.length, 0 ≤ excess (tokens.take n))
    ⟨fun h => ⟨h.1, fun n => by
      rcases Nat.le_total n tokens.length with hn | hn
      · exact h.2 n hn
      · exact Int.le_of_eq (by rw [List.take_of_length_le hn, h.1])⟩,
    fun h => ⟨h.total, fun n _ => h.ahead n⟩⟩

/-! ### Stretches of a list -/

/-- The tokens from position `a` to before position `b`. -/
def between (tokens : List Token) (a b : Nat) : List Token := (tokens.take b).drop a

section
variable {tokens : List Token} {token : Token} {a b c i j k : Nat}

theorem between_zero (tokens : List Token) (b : Nat) : between tokens 0 b = tokens.take b := rfl

theorem between_self (tokens : List Token) (a : Nat) : between tokens a a = [] := by
  have hlength : (tokens.take a).length ≤ a := List.length_take_le a tokens
  exact List.drop_eq_nil_of_le hlength

theorem between_append (hab : a ≤ b) (hbc : b ≤ c) :
    between tokens a b ++ between tokens b c = between tokens a c := by
  obtain ⟨n, rfl⟩ := Nat.exists_eq_add_of_le hab
  have htake : tokens.take (a + n) = (tokens.take c).take (a + n) := by
    rw [List.take_take, Nat.min_eq_left hbc]
  unfold between
  rw [htake, List.drop_take, Nat.add_sub_cancel_left, ← List.drop_drop]
  exact List.take_append_drop _ _

theorem between_cons (hat : tokens[i]? = some token) (hij : i < j) :
    between tokens i j = token :: between tokens (i + 1) j := by
  obtain ⟨hi, rfl⟩ := List.getElem?_eq_some_iff.mp hat
  have hlt : i < (tokens.take j).length := by
    rw [List.length_take]
    exact Nat.lt_min.mpr ⟨hij, hi⟩
  unfold between
  rw [List.drop_eq_getElem_cons hlt, List.getElem_take]

theorem between_snoc (hat : tokens[j]? = some token) (haj : a ≤ j) :
    between tokens a (j + 1) = between tokens a j ++ [token] := by
  rw [← between_append haj (Nat.le_succ j), between_cons hat (Nat.lt_succ_self j), between_self]

theorem balanced_between_succ (hat : tokens[j]? = some token) (hinner : token.Inner) :
    Balanced (between tokens j (j + 1)) := by
  rw [between_cons hat (Nat.lt_succ_self j), between_self]
  exact balanced_inner hinner

theorem Balanced.excess_between (h : Balanced (between tokens a b)) (hak : a ≤ k) (hkb : k ≤ b) :
    0 ≤ excess (between tokens a k) := by
  rw [← between_append hak hkb] at h
  exact h.excess_prefix

/-- From a bracket on, one more is open than behind it. -/
theorem excess_between_lbracket (hopens : kindAt tokens i = some .lbracket) (hik : i < k) :
    excess (between tokens i k) = excess (between tokens (i + 1) k) + 1 := by
  obtain ⟨left, hat, hleft⟩ := Option.map_eq_some_iff.mp hopens
  rw [between_cons hat hik, excess_lbracket hleft]

/-! ### The innermost open bracket -/

/-- The bracket at `i` is open just before position `j`, and every later one is closed. -/
structure Encloses (tokens : List Token) (i j : Nat) : Prop where
  lt : i < j
  opens : kindAt tokens i = some .lbracket
  inside : Balanced (between tokens (i + 1) j)

instance (tokens : List Token) (i j : Nat) : Decidable (Encloses tokens i j) :=
  decidable_of_iff (i < j ∧ kindAt tokens i = some .lbracket ∧ Balanced (between tokens (i + 1) j))
    ⟨fun h => ⟨h.1, h.2.1, h.2.2⟩, fun h => ⟨h.lt, h.opens, h.inside⟩⟩

/-- A bracket inside the innermost open one has been closed. -/
theorem Encloses.closed (h : Encloses tokens i k) (hopens : kindAt tokens j = some .lbracket)
    (hij : i < j) (hjk : j < k) : excess (between tokens (j + 1) k) < 0 := by
  have hle : i + 1 ≤ j := hij
  have htotal := h.inside.total
  have hbefore := h.inside.excess_between hle (Nat.le_of_lt hjk)
  rw [← between_append hle (Nat.le_of_lt hjk), excess_append, excess_between_lbracket hopens hjk] at htotal
  omega

/-- The bracket at `i` is open just before position `j`, with or without open brackets inside. -/
structure Unclosed (tokens : List Token) (i j : Nat) : Prop where
  lt : i < j
  opens : kindAt tokens i = some .lbracket
  inside : ∀ k, i < k → k ≤ j → 0 ≤ excess (between tokens (i + 1) k)

theorem Encloses.unclosed (h : Encloses tokens i j) : Unclosed tokens i j :=
  ⟨h.lt, h.opens, fun _ hik hkj => h.inside.excess_between hik hkj⟩

/-- No bracket further in than the innermost one is open. -/
theorem Encloses.le_of_unclosed (h : Encloses tokens i k) (hopen : Unclosed tokens j k) : j ≤ i := by
  refine Nat.le_of_not_lt fun hij => ?_
  have hclosed := h.closed hopen.opens hij hopen.lt
  have hinside := hopen.inside k hopen.lt (Nat.le_refl k)
  omega

theorem Encloses.unique (h : Encloses tokens i k) (h' : Encloses tokens j k) : i = j :=
  Nat.le_antisymm (h'.le_of_unclosed h.unclosed) (h.le_of_unclosed h'.unclosed)

/-- Behind a balanced list no bracket is open. -/
theorem Balanced.not_unclosed (h : Balanced (tokens.take j)) : ¬ Unclosed tokens i j := by
  intro hopen
  rw [← between_zero] at h
  have htotal := h.total
  have hbefore := h.excess_between (Nat.zero_le i) (Nat.le_of_lt hopen.lt)
  have hinside := hopen.inside j hopen.lt (Nat.le_refl j)
  rw [← between_append (Nat.zero_le i) (Nat.le_of_lt hopen.lt), excess_append,
    excess_between_lbracket hopen.opens hopen.lt] at htotal
  omega

theorem Unclosed.shorten (h : Unclosed tokens i j) (hik : i < k) (hkj : k ≤ j) : Unclosed tokens i k :=
  ⟨hik, h.opens, fun m him hmk => h.inside m him (Nat.le_trans hmk hkj)⟩

theorem Unclosed.trans (h : Unclosed tokens i k) (h' : Unclosed tokens k j) : Unclosed tokens i j := by
  refine ⟨Nat.lt_trans h.lt h'.lt, h.opens, fun m him hmj => ?_⟩
  rcases Nat.lt_or_ge k m with hkm | hmk
  · have hik : i + 1 ≤ k := h.lt
    have houter := h.inside k h.lt (Nat.le_refl k)
    have hinner := h'.inside m hkm hmj
    rw [← between_append hik (Nat.le_of_lt hkm), excess_append, excess_between_lbracket h'.opens hkm]
    omega
  · exact h.inside m him hmk

theorem encloses_succ (hopens : kindAt tokens j = some .lbracket) : Encloses tokens j (j + 1) := by
  refine ⟨Nat.lt_succ_self j, hopens, ?_⟩
  rw [between_self]
  exact balanced_nil

/-- What encloses a position still does so behind a balanced stretch. -/
theorem Encloses.extend (h : Encloses tokens i a) (hab : a ≤ b) (hstretch : Balanced (between tokens a b)) :
    Encloses tokens i b := by
  refine ⟨Nat.lt_of_lt_of_le h.lt hab, h.opens, ?_⟩
  rw [← between_append h.lt hab]
  exact h.inside.append hstretch

/-! ### The bracket that closes -/

theorem Unclosed.balanced (h : Unclosed tokens i j) (htotal : excess (between tokens (i + 1) j) = 0) :
    Balanced (between tokens (i + 1) j) := by
  refine ⟨htotal, fun n => ?_⟩
  have htake : (between tokens (i + 1) j).take n = between tokens (i + 1) (min (i + 1 + n) j) := by
    unfold between
    rw [List.take_drop, List.take_take]
  rw [htake]
  exact h.inside _ (Nat.lt_min.mpr ⟨by omega, h.lt⟩) (Nat.min_le_right ..)

/-- Up to any position a bracket is open still, or one of the brackets after it has closed it. -/
theorem unclosed_or_closed (hopens : kindAt tokens i = some .lbracket) (hij : i < j)
    (hj : j ≤ tokens.length) :
    Unclosed tokens i j ∨ ∃ k, kindAt tokens k = some .rbracket ∧ Encloses tokens i k := by
  induction j, hij using Nat.le_induction with
  | base => exact .inl (encloses_succ hopens).unclosed
  | succ j hij ih =>
    rcases ih (Nat.le_of_succ_le hj) with hopen | hclosed
    · have hlast := hopen.inside j hij (Nat.le_refl j)
      have hat : tokens[j]? = some tokens[j] := List.getElem?_eq_getElem hj
      have hkind : kindAt tokens j = some tokens[j].kind := by rw [kindAt, hat, Option.map_some]
      have hexcess : excess (between tokens (i + 1) (j + 1)) =
          excess (between tokens (i + 1) j) + excess [tokens[j]] := by rw [between_snoc hat hij, excess_append]
      -- Only a right bracket where nothing else is open closes it.
      by_cases hcloses : tokens[j].kind = .rbracket ∧ excess (between tokens (i + 1) j) = 0
      · rw [hcloses.1] at hkind
        exact .inr ⟨j, hkind, hopen.lt, hopens, hopen.balanced hcloses.2⟩
      · refine .inl ⟨Nat.lt_succ_of_lt hij, hopens, fun k hik hkj => ?_⟩
        rcases Nat.lt_or_ge j k with hjk | hkj
        · obtain rfl : k = j + 1 := by omega
          rw [hexcess]
          by_cases hright : tokens[j].kind = .rbracket
          · have hinside : excess (between tokens (i + 1) j) ≠ 0 := fun hzero => hcloses ⟨hright, hzero⟩
            rw [excess_rbracket hright, excess_nil]
            omega
          · have hnonneg : 0 ≤ excess [tokens[j]] := by
              unfold excess
              rw [countKind_cons .rbracket, if_neg hright]
              exact Int.sub_nonneg.mpr (Int.ofNat_le.mpr (Nat.zero_le _))
            omega
        · exact hopen.inside k hik hkj
    · exact .inr hclosed

/-- In a balanced list every bracket is closed. -/
theorem Balanced.exists_closing (h : Balanced tokens) (hopens : kindAt tokens i = some .lbracket) :
    ∃ j, kindAt tokens j = some .rbracket ∧ Encloses tokens i j := by
  obtain ⟨left, hat, -⟩ := Option.map_eq_some_iff.mp hopens
  obtain ⟨hi, -⟩ := List.getElem?_eq_some_iff.mp hat
  rcases unclosed_or_closed hopens hi (Nat.le_refl _) with hopen | hclosed
  · rw [← List.take_length (l := tokens)] at h
    exact absurd hopen h.not_unclosed
  · exact hclosed

/-- Behind the bracket that closes it a bracket is not open. -/
theorem Encloses.not_unclosed (h : Encloses tokens i j) (hright : kindAt tokens j = some .rbracket)
    (hjk : j < k) : ¬ Unclosed tokens i k := by
  intro hopen
  obtain ⟨right, hat, hkind⟩ := Option.map_eq_some_iff.mp hright
  have hinside := hopen.inside (j + 1) (Nat.lt_succ_of_lt h.lt) hjk
  rw [between_snoc hat h.lt, excess_append, h.inside.total, excess_rbracket hkind, excess_nil] at hinside
  exact absurd hinside (by decide)

theorem Encloses.closing_unique (h : Encloses tokens i j) (hright : kindAt tokens j = some .rbracket)
    (h' : Encloses tokens i k) (hright' : kindAt tokens k = some .rbracket) : j = k := by
  rcases Nat.lt_trichotomy j k with hjk | heq | hkj
  · exact absurd h'.unclosed (h.not_unclosed hright hjk)
  · exact heq
  · exact absurd h.unclosed (h'.not_unclosed hright' hkj)

/-- What is opened inside a bracket is closed before it. -/
theorem Encloses.closing_lt (h : Encloses tokens i j) (h' : Encloses tokens k a) (hik : i < k) (hkj : k < j) :
    a < j := by
  refine Nat.lt_of_not_le fun hja => ?_
  have hclosed := h.closed h'.opens hik hkj
  have hinside := h'.unclosed.inside j hkj hja
  omega

/-! ### The separators of a call -/

/-- How many of the separators before position `j` stand directly inside the bracket at `i`. -/
def separatorsInside (tokens : List Token) (i j : Nat) : Nat :=
  (List.range j).countP fun k => kindAt tokens k = some .separator ∧ Encloses tokens i k

theorem separatorsInside_succ (tokens : List Token) (i j : Nat) :
    separatorsInside tokens i (j + 1) = separatorsInside tokens i j +
      if kindAt tokens j = some .separator ∧ Encloses tokens i j then 1 else 0 := by
  simp [separatorsInside, List.range_succ, List.countP_append]

theorem separatorsInside_opened (tokens : List Token) (i : Nat) :
    separatorsInside tokens i (i + 1) = 0 := by
  refine List.countP_eq_zero.mpr fun k hk hcounted => ?_
  have hle : k < i + 1 := List.mem_range.mp hk
  have hlt := (of_decide_eq_true hcounted).2.lt
  omega

/-- A stretch whose separators all stand inside brackets of its own adds none. -/
theorem separatorsInside_extend (h : Encloses tokens i a) (hab : a ≤ b)
    (hown : ∀ k, a ≤ k → k < b → kindAt tokens k = some .separator → excess (between tokens a k) ≠ 0) :
    separatorsInside tokens i b = separatorsInside tokens i a := by
  induction b, hab using Nat.le_induction with
  | base => rfl
  | succ b hab ih =>
    have hnone : ¬ (kindAt tokens b = some .separator ∧ Encloses tokens i b) := by
      rintro ⟨hseparator, henclosed⟩
      have htotal := henclosed.inside.total
      rw [← between_append h.lt hab, excess_append, h.inside.total, Int.zero_add] at htotal
      exact hown b hab (Nat.lt_succ_self b) hseparator htotal
    rw [separatorsInside_succ, if_neg hnone, Nat.add_zero]
    exact ih fun k hak hkb => hown k hak (Nat.lt_succ_of_lt hkb)

/-- From an open bracket on, what is inside it belongs to no bracket further out. -/
theorem separatorsInside_unclosed (hik : i < k) (h : Unclosed tokens k j) :
    separatorsInside tokens i j = separatorsInside tokens i k := by
  have hlt : k + 1 ≤ j := h.lt
  induction j, hlt using Nat.le_induction with
  | base =>
    rw [separatorsInside_succ, h.opens]
    simp
  | succ j hkj ih =>
    have hopen := h.shorten hkj (Nat.le_succ j)
    have hnone : ¬ (kindAt tokens j = some .separator ∧ Encloses tokens i j) := fun hseparator =>
      absurd (hseparator.2.le_of_unclosed hopen) (Nat.not_le_of_lt hik)
    rw [separatorsInside_succ, if_neg hnone, Nat.add_zero]
    exact ih hopen

end

end Formula
