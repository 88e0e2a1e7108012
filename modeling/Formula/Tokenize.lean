import Formula.Dialect
import Formula.Lexeme

/-! The tokens of a text.

A lexeme becomes a token in its context: a function table decides which
identifiers are functions, and a minus is a sign where a value is still to come
and a subtraction everywhere else. A character that starts no lexeme ends the
reading, and is reported with the byte at which it stands. -/
namespace Formula

/-- The number of bytes that a text takes in UTF-8. -/
def byteSize : List Char → Nat
  | [] => 0
  | c :: cs => c.utf8Size + byteSize cs

/-- The kind of an identifier: the table comes before the standard constants. -/
def Dialect.identifierKind (table : Dialect) (name : String) : TokenKind :=
  if table.contains name then .function
  else if isStandardConstant name then .const
  else .var

/-- The kind of an operator that comes after a token of the kind `previous?`, if any. -/
def operatorKind (previous? : Option TokenKind) (symbol : Char) : TokenKind :=
  if symbol = '-' ∧ previous?.all TokenKind.expectsOperand then .unary else .binary

namespace Lexeme

def kind (table : Dialect) (previous? : Option TokenKind) : Lexeme → TokenKind
  | .number _ => .number
  | .identifier text => table.identifierKind (String.ofList text)
  | .operator symbol => operatorKind previous? symbol
  | .lbracket => .lbracket
  | .rbracket => .rbracket
  | .separator => .separator

def token (table : Dialect) (previous? : Option TokenKind) (lexeme : Lexeme) : Token :=
  ⟨lexeme.kind table previous?, String.ofList lexeme.text⟩

end Lexeme

namespace Dialect

/-- The tokens of what is left of a text from byte `position` on, after a token of the kind
`previous?`. -/
def tokensFrom (table : Dialect) (previous? : Option TokenKind) (position : Nat) :
    List Char → Except Error (List Token)
  | [] => .ok []
  | c :: cs =>
    if isBlank c then table.tokensFrom previous? (position + c.utf8Size) cs
    else
      match hread : Lexeme.read? (c :: cs) with
      | none => .error (.lexical position c)
      | some (lexeme, rest) =>
        have : rest.length < (c :: cs).length := Lexeme.length_lt_of_read? hread
        let token := lexeme.token table previous?
        (table.tokensFrom (some token.kind) (position + byteSize lexeme.text) rest).map (token :: ·)
termination_by cs => cs.length
decreasing_by
  · exact Nat.lt_succ_self _
  · assumption

def tokenize (table : Dialect) (text : String) : Except Error (List Token) :=
  table.tokensFrom none 0 text.toList

end Dialect

end Formula
