import Mathlib.Algebra.Ring.Nat
import Formula.Proofs.Verdicts

/-! How many tokens of each kind an expression has.

An operator and a separator each make room for one value more, so an expression has one leaf
more than it has of these, however its brackets stand. A call has one separator less than
its function takes arguments, so the names of the functions tell how many separators there
are. Each law is one induction over derivations, in which a phrase has what its parts have
and what it adds itself (`Phrase.values`, `Phrase.separators`). -/
namespace Formula

/-! ### Numbers of tokens -/

/-- How many tokens stand for a value by themselves. -/
def leafCount (tokens : List Token) : Nat := tokens.countP (·.kind.isLeaf)

/-- The separators that the functions named by the tokens ask for: one less than their arguments. -/
def separatorsDue (table : Dialect) (tokens : List Token) : Nat :=
  ((tokens.filter (·.kind == .function)).map fun function => (table.arity function.text).getD 0 - 1).sum

@[simp] theorem leafCount_nil : leafCount [] = 0 := rfl

@[simp] theorem leafCount_cons (token : Token) (tokens : List Token) :
    leafCount (token :: tokens) = (if token.kind.isLeaf then 1 else 0) + leafCount tokens := by
  rw [leafCount, List.countP_cons, Nat.add_comm]
  rfl

@[simp] theorem leafCount_append (a b : List Token) : leafCount (a ++ b) = leafCount a + leafCount b :=
  List.countP_append

section
variable (table : Dialect)

@[simp] theorem separatorsDue_nil : separatorsDue table [] = 0 := rfl

@[simp] theorem separatorsDue_cons (token : Token) (tokens : List Token) :
    separatorsDue table (token :: tokens) =
      (if token.kind = .function then (table.arity token.text).getD 0 - 1 else 0) + separatorsDue table tokens := by
  by_cases h : token.kind = .function
  · simp [separatorsDue, h]
  · simp [separatorsDue, h]

@[simp] theorem separatorsDue_append (a b : List Token) :
    separatorsDue table (a ++ b) = separatorsDue table a + separatorsDue table b := by
  simp [separatorsDue]

end

/-! ### The laws of a phrase -/

/-- The values of a phrase that neither an operator nor a separator goes with. -/
def Phrase.values : Phrase → Nat
  | .operations => 0
  | _ => 1

/-- The separators of a phrase that belong to no call in it. -/
def Phrase.separators : Phrase → Nat
  | .arguments count => count - 1
  | _ => 0

namespace Derives
variable {table : Dialect} {phrase : Phrase} {tokens : List Token}

theorem arguments_pos {count : Nat} (h : Derives table (.arguments count) tokens) : 0 < count := by
  cases h with
  | argument _ => exact Nat.one_pos
  | arguments _ _ _ => exact Nat.succ_pos _

theorem leafCount_eq (h : Derives table phrase tokens) :
    leafCount tokens = countKind .binary tokens + countKind .separator tokens + phrase.values := by
  induction h with
  | expression _ _ ihfirst ihrest =>
    simp only [leafCount_append, countKind_append, ihfirst, ihrest, Phrase.values]
    omega
  | unsigned _ ih => exact ih
  | signed hsign _ ih => simpa [hsign, TokenKind.isLeaf, Phrase.values] using ih
  | done => rfl
  | operation hoperator _ _ ihterm ihrest =>
    simp only [leafCount_cons, leafCount_append, countKind_cons, countKind_append, hoperator, ihterm, ihrest,
      TokenKind.isLeaf, Phrase.values, reduceCtorEq, if_true, if_false]
    omega
  | @leaf token hleaf => cases hkind : token.kind <;> simp_all [TokenKind.isLeaf, Phrase.values]
  | group hleft _ hright ih => simpa [hleft, hright, TokenKind.isLeaf, Phrase.values] using ih
  | call hname _ hleft _ hright ih => simpa [hname, hleft, hright, TokenKind.isLeaf, Phrase.values] using ih
  | argument _ ih => exact ih
  | arguments _ hseparator _ ihfirst ihrest =>
    simp only [leafCount_cons, leafCount_append, countKind_cons, countKind_append, hseparator, ihfirst, ihrest,
      TokenKind.isLeaf, Phrase.values, reduceCtorEq, if_true, if_false]
    omega

theorem countKind_separator (h : Derives table phrase tokens) :
    countKind .separator tokens = separatorsDue table tokens + phrase.separators := by
  induction h with
  | expression _ _ ihfirst ihrest =>
    simp only [countKind_append, separatorsDue_append, ihfirst, ihrest, Phrase.separators]
    omega
  | unsigned _ ih => exact ih
  | signed hsign _ ih => simpa [hsign, Phrase.separators] using ih
  | done => rfl
  | operation hoperator _ _ ihterm ihrest =>
    simp only [countKind_cons, countKind_append, separatorsDue_cons, separatorsDue_append, hoperator, ihterm,
      ihrest, Phrase.separators, reduceCtorEq, if_false]
    omega
  | @leaf token hleaf => cases hkind : token.kind <;> simp_all [TokenKind.isLeaf, Phrase.separators]
  | group hleft _ hright ih => simpa [hleft, hright, Phrase.separators] using ih
  | call hname harity hleft _ hright ih =>
    -- The separators that the arguments leave over are those that the function asks for.
    simpa [hname, harity, hleft, hright, Phrase.separators, Nat.add_comm] using ih
  | argument _ ih => exact ih
  | arguments _ hseparator hrest ihfirst ihrest =>
    have hpos := hrest.arguments_pos
    simp only [countKind_cons, countKind_append, separatorsDue_cons, separatorsDue_append, hseparator, ihfirst,
      ihrest, Phrase.separators, reduceCtorEq, if_true, if_false]
    omega

theorem exists_arity (h : Derives table phrase tokens) :
    ∀ function ∈ tokens, function.kind = .function → ∃ arity, table.arity function.text = some arity := by
  induction h with
  | expression _ _ ihfirst ihrest => exact List.forall_mem_append.mpr ⟨ihfirst, ihrest⟩
  | unsigned _ ih => exact ih
  | signed hsign _ ih => simpa [hsign] using ih
  | done => exact fun _ h => nomatch h
  | operation hoperator _ _ ihterm ihrest =>
    simpa [hoperator, or_imp, forall_and] using And.intro ihterm ihrest
  | @leaf token hleaf => cases hkind : token.kind <;> simp_all [TokenKind.isLeaf]
  | group hleft _ hright ih => simpa [hleft, hright, or_imp, forall_and] using ih
  | call hname harity hleft _ hright ih => simpa [hname, harity, hleft, hright, or_imp, forall_and] using ih
  | argument _ ih => exact ih
  | arguments _ hseparator _ ihfirst ihrest =>
    simpa [hseparator, or_imp, forall_and] using And.intro ihfirst ihrest

/-- The bracket of a call is its own. -/
theorem countKind_function_le (h : Derives table phrase tokens) :
    countKind .function tokens ≤ countKind .lbracket tokens := by
  induction h with
  | expression _ _ ihfirst ihrest => simpa using Nat.add_le_add ihfirst ihrest
  | unsigned _ ih => exact ih
  | signed hsign _ ih => simpa [hsign] using ih
  | done => exact Nat.le_refl 0
  | operation hoperator _ _ ihterm ihrest => simpa [hoperator] using Nat.add_le_add ihterm ihrest
  | @leaf token hleaf => cases hkind : token.kind <;> simp_all [TokenKind.isLeaf]
  | group hleft _ hright ih => simpa [hleft, hright] using Nat.le_add_left_of_le ih
  | call hname _ hleft _ hright ih => simpa [hname, hleft, hright] using ih
  | argument _ ih => exact ih
  | arguments _ hseparator _ ihfirst ihrest => simpa [hseparator] using Nat.add_le_add ihfirst ihrest

end Derives

namespace Scanner

/-- **The tokens of an accepted list can be counted against each other.** There is one leaf more than there are
operators and separators, the separators are those that the functions ask for, all of which are
known and take an argument, and there are as many right brackets as left ones, one for each call at least. -/
theorem counts_of_accepted (table : Dialect) (session : Session) (tokens : List Token)
    (h : scanResult table session tokens = .ok ()) :
    leafCount tokens = countKind .binary tokens + countKind .separator tokens + 1 ∧
    countKind .separator tokens = separatorsDue table tokens ∧
    (∀ function ∈ tokens, function.kind = .function → ∃ arity, table.arity function.text = some arity ∧ 0 < arity) ∧
    countKind .lbracket tokens = countKind .rbracket tokens ∧
    countKind .function tokens ≤ countKind .lbracket tokens := by
  have hderives := scanResult_eq_ok_iff.mp h
  refine ⟨hderives.leafCount_eq, hderives.countKind_separator, fun function hmem hkind => ?_, ?_,
    hderives.countKind_function_le⟩
  · obtain ⟨arity, harity⟩ := hderives.exists_arity function hmem hkind
    exact ⟨arity, harity, (table.proper function.text arity harity).2⟩
  · have htotal := (balanced_of_accepted h).total
    unfold excess at htotal
    omega

/-- With a function `max` of two arguments, `max((x),-y)*2` has three leaves, one operator, one separator and
two pairs of brackets. -/
theorem counts_of_accepted_max : ∃ table, Dialect.default.withFunction "max" 2 = .ok table ∧
    scanResult table .initial [.function "max", .lbracket, .lbracket, .var "x", .rbracket, .separator, .unary "-",
      .var "y", .rbracket, .binary "*", .number "2"] = .ok () ∧
    leafCount [.function "max", .lbracket, .lbracket, .var "x", .rbracket, .separator, .unary "-", .var "y",
      .rbracket, .binary "*", .number "2"] = 1 + 1 + 1 ∧
    separatorsDue table [.function "max", .lbracket, .lbracket, .var "x", .rbracket, .separator, .unary "-",
      .var "y", .rbracket, .binary "*", .number "2"] = 1 ∧
    1 ≤ countKind .lbracket [.function "max", .lbracket, .lbracket, .var "x", .rbracket, .separator, .unary "-",
      .var "y", .rbracket, .binary "*", .number "2"] := by
  obtain ⟨table, htable, haccepted⟩ : ∃ table, Dialect.default.withFunction "max" 2 = .ok table ∧
      scanResult table .initial [.function "max", .lbracket, .lbracket, .var "x", .rbracket, .separator, .unary "-",
        .var "y", .rbracket, .binary "*", .number "2"] = .ok () := ⟨_, rfl, rfl⟩
  obtain ⟨hleaves, hseparators, -, -, hfunctions⟩ := counts_of_accepted table .initial _ haccepted
  exact ⟨table, htable, haccepted, hleaves, hseparators.symm, hfunctions⟩

end Scanner

end Formula
