/-! The units that a text is made of: numbers, identifiers, operators, brackets and
commas, each as long as the text allows.

A number is digits, then maybe a point with digits after it or none, then maybe an
exponent. The exponent needs a digit: without one its mark is left for the next
unit. What `read?` takes and what it leaves are together what it was given
(`text_append_of_read?`), and it never takes nothing (`text_ne_nil_of_read?`). -/
namespace Formula

/-- What may stand between lexemes: a space, a tab, a line feed or a carriage return. -/
def isBlank (c : Char) : Bool := c == ' ' || c == '\t' || c == '\n' || c == '\r'

/-- A letter of the basic alphabet or an underscore. -/
def isNameStart (c : Char) : Bool := c.isAlpha || c == '_'

def isNameChar (c : Char) : Bool := c.isAlphanum || c == '_'

def isOperator (c : Char) : Bool := c == '+' || c == '-' || c == '*' || c == '/' || c == '^'

inductive Lexeme where
  | number (text : List Char)
  | identifier (text : List Char)
  | operator (symbol : Char)
  | lbracket
  | rbracket
  | separator
deriving DecidableEq, Repr

namespace Lexeme

def text : Lexeme → List Char
  | .number text => text
  | .identifier text => text
  | .operator symbol => [symbol]
  | .lbracket => ['(']
  | .rbracket => [')']
  | .separator => [',']

/-! ### Parts of a number

Each part is split off the front of a text; a part that is not there is empty. -/

def splitDigits (cs : List Char) : List Char × List Char :=
  (cs.takeWhile Char.isDigit, cs.dropWhile Char.isDigit)

/-- A point and the digits after it. -/
def splitFraction : List Char → List Char × List Char
  | '.' :: cs => ('.' :: (splitDigits cs).1, (splitDigits cs).2)
  | cs => ([], cs)

def splitSign : List Char → List Char × List Char
  | '+' :: cs => (['+'], cs)
  | '-' :: cs => (['-'], cs)
  | cs => ([], cs)

/-- A mark, maybe a sign, and at least one digit. -/
def splitExponent : List Char → List Char × List Char
  | [] => ([], [])
  | mark :: cs =>
    if mark = 'e' ∨ mark = 'E' then
      let (sign, afterSign) := splitSign cs
      let (digits, rest) := splitDigits afterSign
      if digits = [] then ([], mark :: cs) else (mark :: (sign ++ digits), rest)
    else ([], mark :: cs)

def splitNumber (cs : List Char) : List Char × List Char :=
  let (whole, afterWhole) := splitDigits cs
  let (fraction, afterFraction) := splitFraction afterWhole
  let (exponent, rest) := splitExponent afterFraction
  (whole ++ fraction ++ exponent, rest)

theorem splitDigits_append (cs : List Char) : (splitDigits cs).1 ++ (splitDigits cs).2 = cs :=
  List.takeWhile_append_dropWhile

theorem splitFraction_append (cs : List Char) :
    (splitFraction cs).1 ++ (splitFraction cs).2 = cs := by
  unfold splitFraction
  split
  · simp [splitDigits_append]
  · rfl

theorem splitSign_append (cs : List Char) : (splitSign cs).1 ++ (splitSign cs).2 = cs := by
  unfold splitSign
  split <;> rfl

theorem splitExponent_append (cs : List Char) :
    (splitExponent cs).1 ++ (splitExponent cs).2 = cs := by
  cases cs with
  | nil => rfl
  | cons mark cs =>
    simp only [splitExponent]
    split
    · split
      · rfl
      · simp [splitDigits_append, splitSign_append]
    · rfl

theorem splitNumber_append (cs : List Char) : (splitNumber cs).1 ++ (splitNumber cs).2 = cs := by
  simp only [splitNumber, List.append_assoc, splitExponent_append, splitFraction_append,
    splitDigits_append]

/-! ### Reading -/

/-- The lexeme at the front of a text and what comes after it. -/
def read? : List Char → Option (Lexeme × List Char)
  | [] => none
  | c :: cs =>
    if c.isDigit then some (.number (splitNumber (c :: cs)).1, (splitNumber (c :: cs)).2)
    else if isNameStart c then
      some (.identifier (c :: cs.takeWhile isNameChar), cs.dropWhile isNameChar)
    else if isOperator c then some (.operator c, cs)
    else if c = '(' then some (.lbracket, cs)
    else if c = ')' then some (.rbracket, cs)
    else if c = ',' then some (.separator, cs)
    else none

theorem text_append_of_read? {cs rest : List Char} {lexeme : Lexeme}
    (h : read? cs = some (lexeme, rest)) : lexeme.text ++ rest = cs := by
  cases cs with
  | nil => cases h
  | cons c cs =>
    simp only [read?] at h
    split at h
    · cases h
      exact splitNumber_append (c :: cs)
    split at h
    · cases h
      simp [text]
    split at h
    · cases h
      rfl
    split at h
    · cases h
      simp [text, *]
    split at h
    · cases h
      simp [text, *]
    split at h
    · cases h
      simp [text, *]
    · cases h

theorem text_ne_nil_of_read? {cs rest : List Char} {lexeme : Lexeme}
    (h : read? cs = some (lexeme, rest)) : lexeme.text ≠ [] := by
  cases cs with
  | nil => cases h
  | cons c cs =>
    simp only [read?] at h
    split at h
    · next hdigit =>
      cases h
      simp [text, splitNumber, splitDigits, hdigit]
    repeat' split at h
    all_goals cases h
    all_goals simp [text]

theorem length_lt_of_read? {cs rest : List Char} {lexeme : Lexeme}
    (h : read? cs = some (lexeme, rest)) : rest.length < cs.length := by
  have happend := congrArg List.length (text_append_of_read? h)
  have hpos := List.length_pos_iff.mpr (text_ne_nil_of_read? h)
  rw [List.length_append] at happend
  omega

end Lexeme

end Formula
