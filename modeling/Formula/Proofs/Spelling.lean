import Mathlib.Data.List.TakeWhile
import Formula.Lexeme

/-! How lexemes are spelled, and that reading takes the longest one.

A number, an identifier and a symbol are described here by what they are made of. A
text may begin with several of them, such as `2`, `2e1` and `2e12`, and a lexeme is
*longest* if no other one that the text begins with has more characters. Each part of
a number is read greedily: a part that stops short of the digits that follow cannot be
followed by a part that begins with no digit (`takeWhile_of_prefix`), so nothing is
gained by it. Therefore reading takes exactly the longest lexeme, and fails only where
there is none (`Lexeme.exists_read?_iff`). -/
namespace Formula

/-! ### Shapes -/

/-- Digits and nothing else, maybe none. -/
def IsDigits (text : List Char) : Prop := ∀ c ∈ text, c.isDigit

/-- Nothing, or a point with digits after it or none. -/
inductive IsFraction : List Char → Prop where
  | absent : IsFraction []
  | point {digits : List Char} (hdigits : IsDigits digits) : IsFraction ('.' :: digits)

inductive IsSign : List Char → Prop where
  | absent : IsSign []
  | plus : IsSign ['+']
  | minus : IsSign ['-']

/-- Nothing, or a mark, maybe a sign, and at least one digit. -/
inductive IsExponent : List Char → Prop where
  | absent : IsExponent []
  | marked {mark : Char} {sign digits : List Char} (hmark : mark = 'e' ∨ mark = 'E') (hsign : IsSign sign)
      (hdigits : IsDigits digits) (hne : digits ≠ []) : IsExponent (mark :: (sign ++ digits))

inductive IsNumber : List Char → Prop where
  | parts {whole fraction exponent : List Char} (hwhole : IsDigits whole) (hne : whole ≠ [])
      (hfraction : IsFraction fraction) (hexponent : IsExponent exponent) :
    IsNumber (whole ++ (fraction ++ exponent))

/-- A letter of the basic alphabet or an underscore, then such characters and digits. -/
inductive IsIdentifier : List Char → Prop where
  | name {first : Char} {rest : List Char} (hfirst : first.isAlpha ∨ first = '_')
      (hrest : ∀ c ∈ rest, c.isAlphanum ∨ c = '_') : IsIdentifier (first :: rest)

/-- The operators, the brackets and the comma. -/
def symbols : List Char := ['+', '-', '*', '/', '^', '(', ')', ',']

inductive IsLexeme (text : List Char) : Prop where
  | number (h : IsNumber text)
  | identifier (h : IsIdentifier text)
  | symbol (c : Char) (h : c ∈ symbols) (htext : text = [c])

/-- The text is a lexeme, and what comes after it makes no lexeme of it that is longer. -/
structure IsLongest (text rest : List Char) : Prop where
  lexeme : IsLexeme text
  longest : ∀ other, IsLexeme other → other <+: text ++ rest → other.length ≤ text.length

/-! ### The characters of a lexeme -/

theorem IsNumber.head {text : List Char} (h : IsNumber text) : ∃ c cs, text = c :: cs ∧ c.isDigit := by
  obtain ⟨hwhole, hne, hfraction, hexponent⟩ := h
  obtain ⟨c, cs, rfl⟩ := List.exists_cons_of_ne_nil hne
  exact ⟨c, _, rfl, hwhole c List.mem_cons_self⟩

theorem IsIdentifier.head {text : List Char} (h : IsIdentifier text) :
    ∃ c cs, text = c :: cs ∧ (c.isAlpha ∨ c = '_') := by
  obtain ⟨hfirst, hrest⟩ := h
  exact ⟨_, _, rfl, hfirst⟩

/-- The characters that lexemes are made of. -/
def InLexeme (c : Char) : Prop := c.isAlphanum ∨ c = '_' ∨ c = '.' ∨ c ∈ symbols

theorem IsDigits.inLexeme {text : List Char} (h : IsDigits text) : ∀ c ∈ text, InLexeme c := by
  intro c hc
  have hdigit : c.isDigit := h c hc
  exact .inl (by simp [Char.isAlphanum, hdigit])

theorem IsFraction.inLexeme {text : List Char} (h : IsFraction text) : ∀ c ∈ text, InLexeme c := by
  cases h with
  | absent => exact fun c hc => (nomatch hc)
  | point hdigits => exact List.forall_mem_cons.mpr ⟨.inr (.inr (.inl rfl)), hdigits.inLexeme⟩

theorem IsSign.inLexeme {text : List Char} (h : IsSign text) : ∀ c ∈ text, InLexeme c := by
  cases h with
  | absent => exact fun c hc => (nomatch hc)
  | plus => exact List.forall_mem_singleton.mpr (.inr (.inr (.inr (by decide))))
  | minus => exact List.forall_mem_singleton.mpr (.inr (.inr (.inr (by decide))))

theorem IsExponent.inLexeme {text : List Char} (h : IsExponent text) : ∀ c ∈ text, InLexeme c := by
  cases h with
  | absent => exact fun c hc => (nomatch hc)
  | marked hmark hsign hdigits hne =>
    refine List.forall_mem_cons.mpr ⟨?_, List.forall_mem_append.mpr ⟨hsign.inLexeme, hdigits.inLexeme⟩⟩
    rcases hmark with rfl | rfl <;> exact .inl (by decide)

theorem IsLexeme.inLexeme {text : List Char} (h : IsLexeme text) : ∀ c ∈ text, InLexeme c := by
  cases h with
  | number hnumber =>
    obtain ⟨hwhole, hne, hfraction, hexponent⟩ := hnumber
    exact List.forall_mem_append.mpr ⟨hwhole.inLexeme,
      List.forall_mem_append.mpr ⟨hfraction.inLexeme, hexponent.inLexeme⟩⟩
  | identifier hidentifier =>
    obtain ⟨hfirst, hrest⟩ := hidentifier
    refine List.forall_mem_cons.mpr ⟨?_, fun c hc => ?_⟩
    · rcases hfirst with halpha | hunderscore
      · exact .inl (by simp [Char.isAlphanum, halpha])
      · exact .inr (.inl hunderscore)
    · rcases hrest c hc with halphanum | hunderscore
      · exact .inl halphanum
      · exact .inr (.inl hunderscore)
  | symbol c hc htext =>
    subst htext
    exact List.forall_mem_singleton.mpr (.inr (.inr (.inr hc)))

/-! ### The longest lexeme -/

/-- A text begins with one longest lexeme at most. -/
theorem IsLongest.unique {a b r s : List Char} (ha : IsLongest a r) (hb : IsLongest b s)
    (h : a ++ r = b ++ s) : a = b ∧ r = s := by
  refine List.append_inj h (Nat.le_antisymm ?_ ?_)
  · exact hb.longest a ha.lexeme (h ▸ List.prefix_append a r)
  · exact ha.longest b hb.lexeme (h ▸ List.prefix_append b s)

/-! ### Greedy parts -/

/-- A greedy read stops where its characters end. -/
theorem span_append {p : Char → Bool} {a b : List Char} (ha : ∀ c ∈ a, p c) (hb : ∀ c ∈ b.head?, ¬p c) :
    (a ++ b).takeWhile p = a ∧ (a ++ b).dropWhile p = b := by
  rw [List.takeWhile_append_of_pos ha, List.dropWhile_append_of_pos ha]
  cases b with
  | nil => exact ⟨List.append_nil a, rfl⟩
  | cons c b =>
    have hc : ¬p c := hb c rfl
    rw [List.takeWhile_cons_of_neg hc, List.dropWhile_cons_of_neg hc]
    exact ⟨List.append_nil a, rfl⟩

/-- A greedy read either takes all of `a` and stops there, or nothing comes after `a`. -/
theorem takeWhile_of_prefix {p : Char → Bool} {a b cs : List Char} (ha : ∀ c ∈ a, p c)
    (hb : ∀ c ∈ b.head?, ¬p c) (h : a ++ b <+: cs) :
    (a = cs.takeWhile p ∧ b <+: cs.dropWhile p) ∨ (b = [] ∧ a.length ≤ (cs.takeWhile p).length) := by
  obtain ⟨rest, rfl⟩ := h
  induction a with
  | nil =>
    cases b with
    | nil => exact .inr ⟨rfl, Nat.zero_le _⟩
    | cons c b =>
      have hc : ¬p c := hb c rfl
      refine .inl ?_
      simp [hc]
  | cons c a ih =>
    have hc : p c := ha c List.mem_cons_self
    rcases ih fun d hd => ha d (List.mem_cons_of_mem c hd) with ⟨htake, hdrop⟩ | ⟨hnil, hle⟩
    · refine .inl ⟨?_, ?_⟩
      · rw [List.cons_append, List.cons_append, List.takeWhile_cons_of_pos hc, ← htake]
      · simpa [hc] using hdrop
    · refine .inr ⟨hnil, ?_⟩
      simpa [hc] using hle

theorem IsExponent.head {exponent : List Char} (h : IsExponent exponent) :
    ∀ c ∈ exponent.head?, c = 'e' ∨ c = 'E' := by
  intro c hc
  cases h with
  | absent => cases hc
  | marked hmark hsign hdigits hne =>
    cases hc
    exact hmark

theorem IsExponent.head_not_digit {exponent : List Char} (h : IsExponent exponent) :
    ∀ c ∈ exponent.head?, ¬c.isDigit := by
  intro c hc
  rcases h.head c hc with rfl | rfl <;> decide

theorem IsFraction.head_not_digit {fraction exponent : List Char} (h : IsFraction fraction)
    (hexponent : IsExponent exponent) : ∀ c ∈ (fraction ++ exponent).head?, ¬c.isDigit := by
  cases h with
  | absent => exact hexponent.head_not_digit
  | point hdigits =>
    intro c hc
    cases hc
    decide

namespace Lexeme

theorem isDigits_splitDigits (cs : List Char) : IsDigits (splitDigits cs).1 :=
  fun _ h => List.mem_takeWhile_imp h

/-- Digits that a text begins with are read in full if what comes next begins with none. -/
theorem splitDigits_of_prefix {digits next cs : List Char} (hdigits : IsDigits digits)
    (hnext : ∀ c ∈ next.head?, ¬c.isDigit) (h : digits ++ next <+: cs) :
    (digits = (splitDigits cs).1 ∧ next <+: (splitDigits cs).2) ∨
      (next = [] ∧ digits.length ≤ (splitDigits cs).1.length) :=
  takeWhile_of_prefix hdigits hnext h

theorem length_le_splitDigits {digits cs : List Char} (h : IsDigits digits) (hcs : digits <+: cs) :
    digits.length ≤ (splitDigits cs).1.length := by
  rw [← List.append_nil digits] at hcs
  rcases splitDigits_of_prefix h (by simp) hcs with ⟨htake, -⟩ | ⟨-, hle⟩
  · exact Nat.le_of_eq (congrArg List.length htake)
  · exact hle

/-! ### Numbers -/

theorem isFraction_splitFraction (cs : List Char) : IsFraction (splitFraction cs).1 := by
  unfold splitFraction
  split
  · exact .point (isDigits_splitDigits _)
  · exact .absent

theorem isSign_splitSign (cs : List Char) : IsSign (splitSign cs).1 := by
  unfold splitSign
  split
  · exact .plus
  · exact .minus
  · exact .absent

theorem isExponent_splitExponent (cs : List Char) : IsExponent (splitExponent cs).1 := by
  cases cs with
  | nil => exact .absent
  | cons mark cs =>
    simp only [splitExponent]
    split
    · next hmark =>
      split
      · exact .absent
      · next hne => exact .marked hmark (isSign_splitSign _) (isDigits_splitDigits _) hne
    · exact .absent

/-- Before a digit a sign is taken if there is one. -/
theorem splitSign_of_isSign {sign cs : List Char} (hsign : IsSign sign) (hcs : ∀ c ∈ cs.head?, c.isDigit) :
    splitSign (sign ++ cs) = (sign, cs) := by
  cases hsign with
  | plus => rfl
  | minus => rfl
  | absent =>
    unfold splitSign
    split
    · next rest heq =>
      have hplus := hcs '+' (by rw [← List.nil_append cs, heq]; rfl)
      exact absurd hplus (by decide)
    · next rest heq =>
      have hminus := hcs '-' (by rw [← List.nil_append cs, heq]; rfl)
      exact absurd hminus (by decide)
    · rfl

theorem length_le_splitExponent {exponent cs : List Char} (h : IsExponent exponent) (hcs : exponent <+: cs) :
    exponent.length ≤ (splitExponent cs).1.length := by
  cases h with
  | absent => exact Nat.zero_le _
  | @marked mark sign digits hmark hsign hdigits hne =>
    obtain ⟨rest, rfl⟩ := hcs
    obtain ⟨d, ds, rfl⟩ := List.exists_cons_of_ne_nil hne
    have hd : d.isDigit := hdigits d List.mem_cons_self
    have hsplit : splitSign (sign ++ (d :: ds ++ rest)) = (sign, d :: ds ++ rest) :=
      splitSign_of_isSign hsign fun c hc => by cases hc; exact hd
    have hle := length_le_splitDigits hdigits (List.prefix_append (d :: ds) rest)
    have hpos : (splitDigits (d :: ds ++ rest)).1 ≠ [] := by
      intro hnil
      rw [hnil] at hle
      exact absurd hle (Nat.not_succ_le_zero _)
    rw [List.cons_append, List.append_assoc]
    simp only [splitExponent, if_pos hmark, hsplit, if_neg hpos, List.length_cons, List.length_append]
    simp only [List.length_cons] at hle
    omega

theorem splitFraction_of_head {cs : List Char} (h : ∀ c ∈ cs.head?, c ≠ '.') :
    splitFraction cs = ([], cs) := by
  unfold splitFraction
  split
  · exact absurd rfl (h '.' rfl)
  · rfl

/-- No fraction and exponent that a text begins with are longer together than those that are read. -/
theorem length_le_splitFraction {fraction exponent cs : List Char} (hfraction : IsFraction fraction)
    (hexponent : IsExponent exponent) (hcs : fraction ++ exponent <+: cs) :
    (fraction ++ exponent).length ≤
      ((splitFraction cs).1 ++ (splitExponent (splitFraction cs).2).1).length := by
  cases hfraction with
  | absent =>
    cases exponent with
    | nil => exact Nat.zero_le _
    | cons mark exponent =>
      -- The text begins with the mark, so no fraction is read before it.
      obtain ⟨rest, rfl⟩ := hcs
      have hmark : ∀ c ∈ (mark :: (exponent ++ rest)).head?, c ≠ '.' := by
        intro c hc
        cases hc
        rcases hexponent.head mark rfl with rfl | rfl <;> decide
      rw [List.nil_append, List.cons_append, splitFraction_of_head hmark]
      exact length_le_splitExponent hexponent (List.prefix_append _ rest)
  | @point digits hdigits =>
    obtain ⟨rest, rfl⟩ := hcs
    have hafter : splitFraction ('.' :: digits ++ exponent ++ rest) =
        ('.' :: (splitDigits (digits ++ exponent ++ rest)).1, (splitDigits (digits ++ exponent ++ rest)).2) := rfl
    rw [hafter]
    simp only [List.length_append, List.length_cons]
    rcases splitDigits_of_prefix hdigits hexponent.head_not_digit (List.prefix_append _ rest) with
      ⟨htake, hdrop⟩ | ⟨hnil, hle⟩
    · have hlength := congrArg List.length htake
      have hle := length_le_splitExponent hexponent hdrop
      omega
    · have hlength := congrArg List.length hnil
      rw [List.length_nil] at hlength
      omega

theorem length_le_splitNumber {number cs : List Char} (h : IsNumber number) (hcs : number <+: cs) :
    number.length ≤ (splitNumber cs).1.length := by
  obtain ⟨hwhole, hne, hfraction, hexponent⟩ := h
  rename_i whole fraction exponent
  have hsplit : (splitNumber cs).1.length = (splitDigits cs).1.length +
      ((splitFraction (splitDigits cs).2).1 ++
        (splitExponent (splitFraction (splitDigits cs).2).2).1).length := by
    simp only [splitNumber, List.append_assoc, List.length_append]
  rw [hsplit, List.length_append]
  rcases splitDigits_of_prefix hwhole (hfraction.head_not_digit hexponent) hcs with
    ⟨htake, hdrop⟩ | ⟨hnil, hle⟩
  · have hlength := congrArg List.length htake
    have hle := length_le_splitFraction hfraction hexponent hdrop
    exact Nat.add_le_add (Nat.le_of_eq hlength) hle
  · -- The digits stop short of those of the text, so they are the whole number.
    rw [hnil]
    exact Nat.le_trans hle (Nat.le_add_right ..)

theorem isNumber_splitNumber {c : Char} (hc : c.isDigit) (cs : List Char) :
    IsNumber (splitNumber (c :: cs)).1 := by
  have hne : (splitDigits (c :: cs)).1 ≠ [] := by simp [splitDigits, hc]
  simp only [splitNumber, List.append_assoc]
  exact .parts (isDigits_splitDigits _) hne (isFraction_splitFraction _) (isExponent_splitExponent _)

/-! ### The first character -/

theorem isNameStart_iff (c : Char) : isNameStart c ↔ c.isAlpha ∨ c = '_' := by
  simp [isNameStart]

theorem isNameChar_iff (c : Char) : isNameChar c ↔ c.isAlphanum ∨ c = '_' := by
  simp [isNameChar]

/-- The letters and the underscore come after the digits. -/
theorem not_isNameStart_of_isDigit {c : Char} (h : c.isDigit) : ¬isNameStart c := by
  have hle : c.val ≤ '9'.val := of_decide_eq_true (Bool.and_eq_true_iff.mp h).2
  have hbefore : ∀ first : Char, '9'.val < first.val → ¬first.val ≤ c.val := fun first hfirst hge =>
    UInt32.lt_irrefl _ (UInt32.lt_of_lt_of_le hfirst (UInt32.le_trans hge hle))
  rw [isNameStart_iff]
  rintro (halpha | rfl)
  · rcases Bool.or_eq_true_iff.mp halpha with hupper | hlower
    · have hrange : 'A'.val ≤ c.val ∧ c.val ≤ 'Z'.val := of_decide_eq_true hupper
      exact hbefore 'A' (by decide) hrange.1
    · exact hbefore 'a' (by decide) (of_decide_eq_true (Bool.and_eq_true_iff.mp hlower).1)
  · exact hbefore '_' (by decide) (UInt32.le_refl _)

theorem not_isDigit_of_symbol {c : Char} (h : c ∈ symbols) : ¬c.isDigit ∧ ¬isNameStart c := by
  simp only [symbols, List.mem_cons, List.not_mem_nil, or_false] at h
  rcases h with rfl | rfl | rfl | rfl | rfl | rfl | rfl | rfl <;> decide

theorem mem_symbols_iff (c : Char) : c ∈ symbols ↔ isOperator c ∨ c = '(' ∨ c = ')' ∨ c = ',' := by
  simp [symbols, isOperator, or_assoc]

/-- What a lexeme is can be told from its first character. -/
theorem cases_of_isLexeme {text : List Char} (h : IsLexeme text) : ∃ c cs, text = c :: cs ∧
    ((c.isDigit ∧ IsNumber text) ∨ (isNameStart c ∧ IsIdentifier text) ∨ (c ∈ symbols ∧ cs = [])) := by
  cases h with
  | number hnumber =>
    obtain ⟨c, cs, rfl, hc⟩ := hnumber.head
    exact ⟨c, cs, rfl, .inl ⟨hc, hnumber⟩⟩
  | identifier hidentifier =>
    obtain ⟨c, cs, rfl, hc⟩ := hidentifier.head
    exact ⟨c, cs, rfl, .inr (.inl ⟨(isNameStart_iff c).mpr hc, hidentifier⟩)⟩
  | symbol c hc htext => exact ⟨c, [], htext, .inr (.inr ⟨hc, rfl⟩)⟩

/-! ### Reading -/

theorem read?_of_isDigit {c : Char} (hc : c.isDigit) (cs : List Char) :
    read? (c :: cs) = some (.number (splitNumber (c :: cs)).1, (splitNumber (c :: cs)).2) := by
  rw [read?, if_pos hc]

theorem read?_of_isNameStart {c : Char} (hc : isNameStart c) (cs : List Char) :
    read? (c :: cs) = some (.identifier (c :: cs.takeWhile isNameChar), cs.dropWhile isNameChar) := by
  have hdigit : ¬c.isDigit := fun h => not_isNameStart_of_isDigit h hc
  rw [read?, if_neg hdigit, if_pos hc]

theorem read?_of_isOperator {c : Char} (hc : isOperator c) (cs : List Char) :
    read? (c :: cs) = some (.operator c, cs) := by
  simp only [isOperator, Bool.or_eq_true, beq_iff_eq] at hc
  rcases hc with (((rfl | rfl) | rfl) | rfl) | rfl <;> rfl

theorem read?_of_symbol {c : Char} (hc : c ∈ symbols) (cs : List Char) :
    ∃ lexeme, read? (c :: cs) = some (lexeme, cs) ∧ lexeme.text = [c] := by
  rcases (mem_symbols_iff c).mp hc with hoperator | rfl | rfl | rfl
  · exact ⟨_, read?_of_isOperator hoperator cs, rfl⟩
  all_goals exact ⟨_, rfl, rfl⟩

theorem first_of_read? {c : Char} {cs rest : List Char} {lexeme : Lexeme}
    (h : read? (c :: cs) = some (lexeme, rest)) : c.isDigit ∨ isNameStart c ∨ c ∈ symbols := by
  rw [mem_symbols_iff]
  simp only [read?] at h
  split at h
  · next hdigit => exact .inl hdigit
  split at h
  · next hname => exact .inr (.inl hname)
  refine .inr (.inr ?_)
  split at h
  · next hoperator => exact .inl hoperator
  split at h
  · next hleft => exact .inr (.inl hleft)
  split at h
  · next hright => exact .inr (.inr (.inl hright))
  split at h
  · next hcomma => exact .inr (.inr (.inr hcomma))
  · cases h

/-- What a text begins with as a lexeme is told by the first character of the text. -/
theorem cases_of_prefix {c : Char} {cs text : List Char} (h : IsLexeme text) (hcs : text <+: c :: cs) :
    (c.isDigit ∧ IsNumber text) ∨ (isNameStart c ∧ IsIdentifier text) ∨
      (c ∈ symbols ∧ text.length = 1) := by
  obtain ⟨d, ds, rfl, hcases⟩ := cases_of_isLexeme h
  obtain ⟨rfl, -⟩ := List.cons_prefix_cons.mp hcs
  rcases hcases with hnumber | hidentifier | ⟨hsymbol, rfl⟩
  · exact .inl hnumber
  · exact .inr (.inl hidentifier)
  · exact .inr (.inr ⟨hsymbol, rfl⟩)

theorem isLongest_number {c : Char} (hc : c.isDigit) (cs : List Char) :
    IsLongest (splitNumber (c :: cs)).1 (splitNumber (c :: cs)).2 := by
  refine ⟨.number (isNumber_splitNumber hc cs), fun other hother hprefix => ?_⟩
  rw [splitNumber_append] at hprefix
  rcases cases_of_prefix hother hprefix with ⟨-, hnumber⟩ | ⟨hname, -⟩ | ⟨hsymbol, -⟩
  · exact length_le_splitNumber hnumber hprefix
  · exact absurd hname (not_isNameStart_of_isDigit hc)
  · exact absurd hc (not_isDigit_of_symbol hsymbol).1

theorem isIdentifier_takeWhile {c : Char} (hc : isNameStart c) (cs : List Char) :
    IsIdentifier (c :: cs.takeWhile isNameChar) :=
  .name ((isNameStart_iff c).mp hc) fun d hd => (isNameChar_iff d).mp (List.mem_takeWhile_imp hd)

theorem isLongest_identifier {c : Char} (hc : isNameStart c) (cs : List Char) :
    IsLongest (c :: cs.takeWhile isNameChar) (cs.dropWhile isNameChar) := by
  refine ⟨.identifier (isIdentifier_takeWhile hc cs), fun other hother hprefix => ?_⟩
  rw [List.cons_append, List.takeWhile_append_dropWhile] at hprefix
  rcases cases_of_prefix hother hprefix with ⟨hdigit, -⟩ | ⟨-, hidentifier⟩ | ⟨hsymbol, -⟩
  · exact absurd hc (not_isNameStart_of_isDigit hdigit)
  · obtain ⟨hfirst, hchars⟩ := hidentifier
    rename_i first rest
    have hname : ∀ d ∈ rest, isNameChar d := fun d hd => (isNameChar_iff d).mpr (hchars d hd)
    have htail : rest ++ [] <+: cs := by
      rw [List.append_nil]
      exact (List.cons_prefix_cons.mp hprefix).2
    refine Nat.succ_le_succ ?_
    rcases takeWhile_of_prefix hname (by simp) htail with ⟨htake, -⟩ | ⟨-, hle⟩
    · exact Nat.le_of_eq (congrArg List.length htake)
    · exact hle
  · exact absurd hc (not_isDigit_of_symbol hsymbol).2

theorem isLongest_symbol {c : Char} (hc : c ∈ symbols) (cs : List Char) : IsLongest [c] cs := by
  refine ⟨.symbol c hc rfl, fun other hother hprefix => ?_⟩
  rcases cases_of_prefix hother hprefix with ⟨hdigit, -⟩ | ⟨hname, -⟩ | ⟨-, hlength⟩
  · exact absurd hdigit (not_isDigit_of_symbol hc).1
  · exact absurd hname (not_isDigit_of_symbol hc).2
  · exact Nat.le_of_eq hlength

theorem isLongest_of_read? {cs rest : List Char} {lexeme : Lexeme} (h : read? cs = some (lexeme, rest)) :
    IsLongest lexeme.text rest := by
  cases cs with
  | nil => cases h
  | cons c cs =>
    rcases first_of_read? h with hdigit | hname | hsymbol
    · rw [read?_of_isDigit hdigit] at h
      cases h
      exact isLongest_number hdigit cs
    · rw [read?_of_isNameStart hname] at h
      cases h
      exact isLongest_identifier hname cs
    · obtain ⟨symbol, hread, htext⟩ := read?_of_symbol hsymbol cs
      rw [hread] at h
      cases h
      rw [htext]
      exact isLongest_symbol hsymbol rest

theorem exists_read?_of_isLexeme {text : List Char} (h : IsLexeme text) (rest : List Char) :
    ∃ lexeme later, read? (text ++ rest) = some (lexeme, later) := by
  obtain ⟨c, cs, rfl, ⟨hdigit, -⟩ | ⟨hname, -⟩ | ⟨hsymbol, rfl⟩⟩ := cases_of_isLexeme h
  · exact ⟨_, _, read?_of_isDigit hdigit (cs ++ rest)⟩
  · exact ⟨_, _, read?_of_isNameStart hname (cs ++ rest)⟩
  · obtain ⟨symbol, hread, -⟩ := read?_of_symbol hsymbol rest
    exact ⟨symbol, rest, hread⟩

/-- A text is read off the front exactly if it is the longest lexeme there. -/
theorem exists_read?_iff {text rest : List Char} :
    (∃ lexeme, read? (text ++ rest) = some (lexeme, rest) ∧ lexeme.text = text) ↔ IsLongest text rest := by
  constructor
  · rintro ⟨lexeme, hread, rfl⟩
    exact isLongest_of_read? hread
  · intro hlongest
    obtain ⟨lexeme, later, hread⟩ := exists_read?_of_isLexeme hlongest.lexeme rest
    obtain ⟨rfl, rfl⟩ := (isLongest_of_read? hread).unique hlongest (text_append_of_read? hread)
    exact ⟨lexeme, hread, rfl⟩

end Lexeme

end Formula
