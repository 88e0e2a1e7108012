import Formula.Proofs.Noninterference
import Formula.Proofs.Splitting

/-! What a function table decides in the reading of a text.

A table is asked for names only, and its answer makes a name a function or leaves it
what it is without. The kind of a token has a say in the next one, if that is a minus:
but a value is due behind none of the kinds that a name may have, so two tables that
disagree on a name agree on what comes behind it (`Token.SameBut.expectsOperand`). Hence
a text is read over two tables into the same tokens but for the kinds of its names, or it
fails over both in the same way (`Dialect.tables_decide_names`). -/
namespace Formula

/-- The same token, or a name that is a function for the tables that have it, and without them the same
constant or the same variable. -/
inductive Token.SameBut (table other : Dialect) : Token → Token → Prop where
  | fixed {token : Token} (h : ¬IsIdentifier token.text.toList) : SameBut table other token token
  | name {name : String} {plain : TokenKind} (h : IsIdentifier name.toList) (hplain : plain = .const ∨ plain = .var) :
    SameBut table other ⟨if table.contains name then .function else plain, name⟩
      ⟨if other.contains name then .function else plain, name⟩

variable {table other : Dialect} {previous? otherPrevious? : Option TokenKind} {cs rest : List Char}

/-! ### One token -/

namespace Token.SameBut
variable {a b : Token}

theorem text (h : a.SameBut table other b) : b.text = a.text := by
  cases h with
  | fixed h => rfl
  | name h hplain => rfl

theorem eq_of_not_isIdentifier (h : a.SameBut table other b) (ha : ¬IsIdentifier a.text.toList) : b = a := by
  cases h with
  | fixed h => rfl
  | name h hplain => exact absurd h ha

/-- A value is due behind both tokens or behind neither. -/
theorem expectsOperand (h : a.SameBut table other b) : b.kind.expectsOperand = a.kind.expectsOperand := by
  cases h with
  | fixed h => rfl
  | @name name plain h hplain =>
    have hname : ∀ known : Bool, (if known then TokenKind.function else plain).expectsOperand = false := by
      intro known
      rcases hplain with rfl | rfl <;> cases known <;> rfl
    exact (hname (other.contains name)).trans (hname (table.contains name)).symm

end Token.SameBut

theorem not_isIdentifier_minus : ¬IsIdentifier "-".toList := by
  intro h
  obtain ⟨first, later, htext, hfirst⟩ := h.head
  obtain ⟨rfl, -⟩ := List.cons.inj htext
  exact absurd hfirst (by decide)

namespace Lexeme

theorem isIdentifier_of_read? {text : List Char} (h : read? cs = some (.identifier text, rest)) :
    IsIdentifier text := by
  cases cs with
  | nil => cases h
  | cons c cs =>
    simp only [read?] at h
    split at h
    · cases h
    split at h
    · next hname =>
      cases h
      exact isIdentifier_takeWhile hname cs
    repeat' split at h
    all_goals cases h

/-- Where a value is due over both tables or over neither, a lexeme makes the same token but for the kind of
a name. -/
theorem token_sameBut {lexeme : Lexeme} (h : read? cs = some (lexeme, rest))
    (hdue : otherPrevious?.all TokenKind.expectsOperand = previous?.all TokenKind.expectsOperand) :
    (lexeme.token table previous?).SameBut table other (lexeme.token other otherPrevious?) := by
  by_cases hname : IsIdentifier lexeme.text
  · rw [token, token, kind_of_isIdentifier h hname, kind_of_isIdentifier h hname]
    refine .name (by rwa [String.toList_ofList]) ?_
    split
    · exact .inl rfl
    · exact .inr rfl
  · have hkind : lexeme.kind other otherPrevious? = lexeme.kind table previous? := by
      cases lexeme with
      | identifier text => exact absurd (isIdentifier_of_read? h) hname
      | operator symbol => simp only [kind, operatorKind, hdue]
      | _ => rfl
    rw [token, token, hkind]
    exact .fixed (by rwa [String.toList_ofList])

end Lexeme

/-! ### A whole text -/

namespace Dialect

/-- From places where a value is due over both tables or over neither, the rest is read alike. -/
theorem tokensFrom_sameBut (hdue : otherPrevious?.all TokenKind.expectsOperand = previous?.all TokenKind.expectsOperand)
    (position : Nat) : Agree (List.Forall₂ (Token.SameBut table other)) (fun error otherError => otherError = error)
      (table.tokensFrom previous? position cs) (other.tokensFrom otherPrevious? position cs) := by
  fun_induction table.tokensFrom previous? position cs generalizing otherPrevious? with
  | case1 previous? position =>
    rw [tokensFrom]
    exact .ok .nil
  | case2 previous? position c cs hblank ih =>
    rw [tokensFrom, if_pos hblank]
    exact ih hdue
  | case3 previous? position c cs hblank hread =>
    rw [tokensFrom, if_neg hblank]
    split
    · exact .error rfl
    · next hsome =>
      rw [hread] at hsome
      cases hsome
  | case4 previous? position c cs hblank lexeme rest hread hlt token =>
    rename_i ih
    have htoken : token.SameBut table other (lexeme.token other otherPrevious?) := Lexeme.token_sameBut hread hdue
    have hnext : (some (lexeme.kind other otherPrevious?)).all TokenKind.expectsOperand =
        (some token.kind).all TokenKind.expectsOperand := htoken.expectsOperand
    rw [tokensFrom_lexeme hread]
    exact (ih hnext).map fun tokens others hothers => .cons htoken hothers

/-- **A table only decides which names are functions**: over two tables a text fails with the same error, or
it is read into as many tokens with the same texts and the same kinds, but for names, each of which is a
function over the tables that have it and else the same constant or variable. So each minus is the same. -/
theorem tables_decide_names (table other : Dialect) (text : String) :
    (∃ error, table.tokenize text = .error error ∧ other.tokenize text = .error error) ∨
    ∃ tokens others, table.tokenize text = .ok tokens ∧ other.tokenize text = .ok others ∧
      others.map Token.text = tokens.map Token.text ∧ List.Forall₂ (Token.SameBut table other) tokens others ∧
      ∀ (i : Nat) (token : Token), tokens[i]? = some token → token.text = "-" → others[i]? = some token := by
  have hagree : Agree (List.Forall₂ (Token.SameBut table other)) (fun error otherError => otherError = error)
      (table.tokenize text) (other.tokenize text) := tokensFrom_sameBut rfl 0
  generalize table.tokenize text = result at hagree
  generalize other.tokenize text = otherResult at hagree
  cases hagree with
  | @error error _ herror => exact .inl ⟨error, rfl, congrArg Except.error herror⟩
  | @ok tokens others hothers =>
    refine .inr ⟨tokens, others, rfl, rfl, ?_, hothers, fun i token hat hminus => ?_⟩
    · have htexts : List.Forall₂ (· = ·) (others.map Token.text) (tokens.map Token.text) :=
        List.forall₂_map_left_iff.mpr (List.forall₂_map_right_iff.mpr (hothers.flip.imp fun _ _ h => h.text))
      rwa [List.forall₂_eq_eq_eq] at htexts
    · obtain ⟨hi, rfl⟩ := List.getElem?_eq_some_iff.mp hat
      have hsame := hothers.get hi (hothers.length_eq ▸ hi)
      have hsymbol : ¬IsIdentifier tokens[i].text.toList := by
        rw [hminus]
        exact not_isIdentifier_minus
      exact List.getElem?_eq_some_iff.mpr ⟨hothers.length_eq ▸ hi, hsame.eq_of_not_isIdentifier hsymbol⟩

end Dialect

end Formula
