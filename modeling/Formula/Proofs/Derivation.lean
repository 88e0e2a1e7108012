import Formula.Dialect

/-! Expressions as a language of token lists.

    Expression ::= Term { BinaryOperator Term }
    Term       ::= [Sign] Operand
    Operand    ::= Variable | Constant | Number | '(' Expression ')'
                 | FunctionName '(' Expression { ',' Expression } ')'

A function name stands only for a function of the table, and its brackets hold as
many expressions as the function takes. Of a token a derivation sees the kind, and
the text only if it names a function (`Derives.of_shape`). -/
namespace Formula

inductive Phrase where
  | expression
  | term
  /-- What follows the first term of an expression. -/
  | operations
  | operand
  /-- So many expressions with separators between them. -/
  | arguments (count : Nat)
deriving DecidableEq, Repr

/-- The token lists that the grammar derives from a phrase. -/
inductive Derives (table : Dialect) : Phrase → List Token → Prop where
  | expression {first rest : List Token} (hfirst : Derives table .term first)
      (hrest : Derives table .operations rest) : Derives table .expression (first ++ rest)
  | unsigned {operand : List Token} (hoperand : Derives table .operand operand) :
    Derives table .term operand
  | signed {sign : Token} {operand : List Token} (hsign : sign.kind = .unary)
      (hoperand : Derives table .operand operand) : Derives table .term (sign :: operand)
  | done : Derives table .operations []
  | operation {operator : Token} {term rest : List Token} (hoperator : operator.kind = .binary)
      (hterm : Derives table .term term) (hrest : Derives table .operations rest) :
    Derives table .operations (operator :: (term ++ rest))
  | leaf {token : Token} (hleaf : token.kind.isLeaf = true) : Derives table .operand [token]
  | group {left right : Token} {inner : List Token} (hleft : left.kind = .lbracket)
      (hinner : Derives table .expression inner) (hright : right.kind = .rbracket) :
    Derives table .operand (left :: (inner ++ [right]))
  | call {name left right : Token} {arity : Nat} {inner : List Token} (hname : name.kind = .function)
      (harity : table.arity name.text = some arity) (hleft : left.kind = .lbracket)
      (hinner : Derives table (.arguments arity) inner) (hright : right.kind = .rbracket) :
    Derives table .operand (name :: left :: (inner ++ [right]))
  | argument {first : List Token} (hfirst : Derives table .expression first) :
    Derives table (.arguments 1) first
  | arguments {first rest : List Token} {separator : Token} {count : Nat}
      (hfirst : Derives table .expression first) (hseparator : separator.kind = .separator)
      (hrest : Derives table (.arguments count) rest) :
    Derives table (.arguments (count + 1)) (first ++ separator :: rest)

/-- What a derivation sees of a token. -/
def Token.shape (token : Token) : TokenKind × Option String :=
  (token.kind, if token.kind = .function then some token.text else none)

theorem Token.kind_of_shape {a b : Token} (h : a.shape = b.shape) : a.kind = b.kind :=
  congrArg Prod.fst h

theorem Token.text_of_shape {a b : Token} (h : a.shape = b.shape) (hb : b.kind = .function) :
    a.text = b.text := by
  have ha : a.kind = .function := (Token.kind_of_shape h).trans hb
  simpa [shape, ha, hb] using h

namespace Derives
variable {table : Dialect}

theorem of_shape {phrase : Phrase} {tokens others : List Token} (h : Derives table phrase tokens)
    (hshape : others.map Token.shape = tokens.map Token.shape) : Derives table phrase others := by
  induction h generalizing others with
  | expression _ _ ihfirst ihrest =>
    rw [List.map_append, List.map_eq_append_iff] at hshape
    obtain ⟨first, rest, rfl, hfirst, hrest⟩ := hshape
    exact .expression (ihfirst hfirst) (ihrest hrest)
  | unsigned _ ih => exact .unsigned (ih hshape)
  | signed hsign _ ih =>
    obtain ⟨sign, operand, rfl, hs, ho⟩ := List.map_eq_cons_iff.mp hshape
    exact .signed ((Token.kind_of_shape hs).trans hsign) (ih ho)
  | done =>
    rw [List.map_eq_nil_iff.mp hshape]
    exact .done
  | operation hoperator _ _ ihterm ihrest =>
    obtain ⟨operator, others, rfl, hop, htail⟩ := List.map_eq_cons_iff.mp hshape
    rw [List.map_append, List.map_eq_append_iff] at htail
    obtain ⟨term, rest, rfl, hterm, hrest⟩ := htail
    exact .operation ((Token.kind_of_shape hop).trans hoperator) (ihterm hterm) (ihrest hrest)
  | leaf hleaf =>
    obtain ⟨token, others, rfl, ht, hnil⟩ := List.map_eq_cons_iff.mp hshape
    rw [List.map_eq_nil_iff.mp hnil]
    exact .leaf (Token.kind_of_shape ht ▸ hleaf)
  | group hleft _ hright ih =>
    obtain ⟨left, others, rfl, hl, htail⟩ := List.map_eq_cons_iff.mp hshape
    rw [List.map_append, List.map_eq_append_iff] at htail
    obtain ⟨inner, others, rfl, hinner, hlast⟩ := htail
    obtain ⟨right, others, rfl, hr, hnil⟩ := List.map_eq_cons_iff.mp hlast
    rw [List.map_eq_nil_iff.mp hnil]
    exact .group ((Token.kind_of_shape hl).trans hleft) (ih hinner)
      ((Token.kind_of_shape hr).trans hright)
  | call hname harity hleft _ hright ih =>
    obtain ⟨name, others, rfl, hn, htail⟩ := List.map_eq_cons_iff.mp hshape
    obtain ⟨left, others, rfl, hl, htail⟩ := List.map_eq_cons_iff.mp htail
    rw [List.map_append, List.map_eq_append_iff] at htail
    obtain ⟨inner, others, rfl, hinner, hlast⟩ := htail
    obtain ⟨right, others, rfl, hr, hnil⟩ := List.map_eq_cons_iff.mp hlast
    rw [List.map_eq_nil_iff.mp hnil]
    exact .call ((Token.kind_of_shape hn).trans hname) (Token.text_of_shape hn hname ▸ harity)
      ((Token.kind_of_shape hl).trans hleft) (ih hinner) ((Token.kind_of_shape hr).trans hright)
  | argument _ ih => exact .argument (ih hshape)
  | arguments _ hseparator _ ihfirst ihrest =>
    rw [List.map_append, List.map_eq_append_iff] at hshape
    obtain ⟨first, others, rfl, hfirst, htail⟩ := hshape
    obtain ⟨separator, rest, rfl, hs, hrest⟩ := List.map_eq_cons_iff.mp htail
    exact .arguments (ihfirst hfirst) ((Token.kind_of_shape hs).trans hseparator) (ihrest hrest)

theorem operand_ne_nil {tokens : List Token} (h : Derives table .operand tokens) : tokens ≠ [] := by
  cases h <;> exact List.cons_ne_nil _ _

theorem expression_ne_nil {tokens : List Token} (h : Derives table .expression tokens) :
    tokens ≠ [] := by
  cases h with
  | expression hfirst hrest =>
    cases hfirst with
    | unsigned hoperand => exact List.append_ne_nil_of_left_ne_nil (operand_ne_nil hoperand) _
    | signed hsign hoperand => exact List.cons_ne_nil _ _

end Derives

end Formula
