import Formula.Json.Number

/-! Reading JSON, strictly: no comments, no commas before a closing bracket, nothing
after the value but blanks, no control characters in strings, every surrogate in a
pair, and arrays and objects nested at most 127 deep.

A reader takes something off the front of a text and returns what is left, which is
shorter (`Rest`). That is why the reading of items, which repeats, comes to an end;
the reading of values ends because what is inside a bracket may nest less deep. -/
namespace Formula.Json

/-- What is left of a text when something was taken off its front. -/
abbrev Rest (cs : List Char) := { rest : List Char // rest.length < cs.length }

abbrev Reader (α : Type) := (cs : List Char) → Option (α × Rest cs)

namespace Reader

/-- Drops blanks. -/
def skip (cs : List Char) : List Char :=
  cs.dropWhile fun c => c == ' ' || c == '\t' || c == '\n' || c == '\r'

theorem length_skip (cs : List Char) : (skip cs).length ≤ cs.length :=
  (List.dropWhile_suffix _).length_le

/-! ### Strings -/

def hexValue? (c : Char) : Option Nat :=
  if '0' ≤ c ∧ c ≤ '9' then some (c.toNat - '0'.toNat)
  else if 'a' ≤ c ∧ c ≤ 'f' then some (c.toNat - 'a'.toNat + 10)
  else if 'A' ≤ c ∧ c ≤ 'F' then some (c.toNat - 'A'.toNat + 10)
  else none

/-- Four hexadecimal digits. -/
def codeUnit : Reader Nat
  | a :: b :: c :: d :: rest => do
    let a ← hexValue? a
    let b ← hexValue? b
    let c ← hexValue? c
    let d ← hexValue? d
    some (((a * 16 + b) * 16 + c) * 16 + d, ⟨rest, by simp only [List.length_cons]; omega⟩)
  | _ => none

/-- The character that is escaped by `\u`: one code unit, or two that are a surrogate pair. -/
def codePoint : Reader Char := fun cs => do
  let (high, ⟨rest, hrest⟩) ← codeUnit cs
  if 0xD800 ≤ high ∧ high ≤ 0xDBFF then
    match rest, hrest with
    | '\\' :: 'u' :: second, hrest =>
      let (low, ⟨rest, hsecond⟩) ← codeUnit second
      if 0xDC00 ≤ low ∧ low ≤ 0xDFFF then
        some (.ofNat (0x10000 + (high - 0xD800) * 0x400 + (low - 0xDC00)),
          ⟨rest, by simp only [List.length_cons] at hrest; omega⟩)
      else none
    | _, _ => none
  else if 0xDC00 ≤ high ∧ high ≤ 0xDFFF then none
  else some (.ofNat high, ⟨rest, hrest⟩)

/-- The character that an escape stands for; the backslash is taken already. -/
def escape : Reader Char
  | '"' :: rest => some ('"', ⟨rest, Nat.lt_succ_self _⟩)
  | '\\' :: rest => some ('\\', ⟨rest, Nat.lt_succ_self _⟩)
  | '/' :: rest => some ('/', ⟨rest, Nat.lt_succ_self _⟩)
  | 'b' :: rest => some ('\x08', ⟨rest, Nat.lt_succ_self _⟩)
  | 'f' :: rest => some ('\x0c', ⟨rest, Nat.lt_succ_self _⟩)
  | 'n' :: rest => some ('\n', ⟨rest, Nat.lt_succ_self _⟩)
  | 'r' :: rest => some ('\r', ⟨rest, Nat.lt_succ_self _⟩)
  | 't' :: rest => some ('\t', ⟨rest, Nat.lt_succ_self _⟩)
  | 'u' :: cs => do
    let (c, ⟨rest, hrest⟩) ← codePoint cs
    some (c, ⟨rest, by simp only [List.length_cons]; omega⟩)
  | _ => none

/-- The characters up to the closing quote. -/
def stringBody (cs : List Char) : Option (List Char × Rest cs) :=
  match cs with
  | [] => none
  | '"' :: rest => some ([], ⟨rest, Nat.lt_succ_self _⟩)
  | '\\' :: cs => do
    let (c, ⟨afterEscape, hescape⟩) ← escape cs
    let (text, ⟨rest, hrest⟩) ← stringBody afterEscape
    some (c :: text, ⟨rest, by simp only [List.length_cons]; omega⟩)
  | c :: cs =>
    if c < ' ' then none
    else do
      let (text, ⟨rest, hrest⟩) ← stringBody cs
      some (c :: text, ⟨rest, by simp only [List.length_cons]; omega⟩)
termination_by cs.length
decreasing_by all_goals simp only [List.length_cons]; omega

def string : Reader String
  | '"' :: cs => do
    let (text, ⟨rest, hrest⟩) ← stringBody cs
    some (String.ofList text, ⟨rest, by simp only [List.length_cons]; omega⟩)
  | _ => none

/-! ### Numbers -/

/-- At least one digit. -/
def digits : Reader (List Char) := fun cs =>
  match cs with
  | [] => none
  | c :: rest =>
    if c.isDigit then
      some (c :: rest.takeWhile Char.isDigit, ⟨rest.dropWhile Char.isDigit,
        Nat.lt_succ_of_le (List.dropWhile_suffix _).length_le⟩)
    else none

/-- Digits before the point: a zero stands alone. -/
def wholeDigits : Reader (List Char) := fun cs => do
  let (whole, rest) ← digits cs
  if whole.head? = some '0' ∧ whole.length ≠ 1 then none else some (whole, rest)

/-- An optional part of a number, behind a mark. Once the mark is there, so must be the part. -/
def optionalPart {α : Type} (mark : Char → Bool) (part : Reader α) (cs : List Char) :
    Option (Option α × { rest : List Char // rest.length ≤ cs.length }) :=
  match cs with
  | [] => some (none, ⟨[], Nat.le_refl _⟩)
  | c :: cs =>
    if mark c then do
      let (value, ⟨rest, hrest⟩) ← part cs
      some (some value, ⟨rest, by simp only [List.length_cons]; omega⟩)
    else some (none, ⟨c :: cs, Nat.le_refl _⟩)

/-- A sign, if there is one, and digits. -/
def signedDigits : Reader Int := fun cs =>
  match cs with
  | '-' :: cs => do
    let (exponent, ⟨rest, hrest⟩) ← digits cs
    some (-(Nat.ofDigitChars 10 exponent 0 : Int), ⟨rest, by simp only [List.length_cons]; omega⟩)
  | '+' :: cs => do
    let (exponent, ⟨rest, hrest⟩) ← digits cs
    some (Nat.ofDigitChars 10 exponent 0, ⟨rest, by simp only [List.length_cons]; omega⟩)
  | cs => do
    let (exponent, rest) ← digits cs
    some (Nat.ofDigitChars 10 exponent 0, rest)

/-- A number without its sign. -/
def unsigned (minus : Bool) : Reader Json := fun cs => do
  let (whole, ⟨afterWhole, hwhole⟩) ← wholeDigits cs
  let (fraction?, ⟨afterFraction, hfraction⟩) ← optionalPart (· == '.') digits afterWhole
  let (exponent?, ⟨rest, hrest⟩) ←
    optionalPart (fun c => c == 'e' || c == 'E') signedDigits afterFraction
  let value ← Number.value? minus whole fraction? exponent?
  some (value, ⟨rest, by omega⟩)

def number : Reader Json
  | '-' :: cs => do
    let (value, ⟨rest, hrest⟩) ← unsigned true cs
    some (value, ⟨rest, by simp only [List.length_cons]; omega⟩)
  | cs => unsigned false cs

/-! ### Values -/

/-- A word that stands for a value. -/
def literal (word : String) (value : Json) : Reader Json := fun cs =>
  if h : 0 < word.length ∧ word.toList.isPrefixOf cs then
    some (value, ⟨cs.drop word.length, by
      have := (List.isPrefixOf_iff_prefix.mp h.2).length_le
      rw [String.length_toList] at this
      rw [List.length_drop]
      omega⟩)
  else none

/-- Items with commas between them and a bracket behind the last. There is at least one. -/
def items {α : Type} (item : Reader α) (close : Char) (cs : List Char) : Option (List α × Rest cs) := do
  let (first, ⟨afterFirst, hfirst⟩) ← item cs
  have := length_skip afterFirst
  match hskip : skip afterFirst with
  | [] => none
  | c :: afterMark =>
    have : afterMark.length < (skip afterFirst).length := by rw [hskip]; exact Nat.lt_succ_self _
    if c = ',' then
      let (others, ⟨rest, hrest⟩) ← items item close afterMark
      some (first :: others, ⟨rest, by omega⟩)
    else if c = close then some ([first], ⟨afterMark, by omega⟩)
    else none
termination_by cs.length
decreasing_by omega

/-- Items up to a bracket, or the bracket alone. -/
def bracketed {α : Type} (item : Reader α) (close : Char) : Reader (List α) := fun cs =>
  have := length_skip cs
  match hskip : skip cs with
  | [] => none
  | c :: rest =>
    if c = close then
      some ([], ⟨rest, by rw [hskip] at this; simp only [List.length_cons] at this; omega⟩)
    else items item close cs

/-- A name, a colon and a value. -/
def member (value : Reader Json) : Reader (String × Json) := fun cs => do
  let (name, ⟨afterName, hname⟩) ← string (skip cs)
  have := length_skip cs
  have := length_skip afterName
  match hskip : skip afterName with
  | ':' :: afterColon =>
    have : afterColon.length < (skip afterName).length := by rw [hskip]; exact Nat.lt_succ_self _
    let (value, ⟨rest, hrest⟩) ← value afterColon
    some ((name, value), ⟨rest, by omega⟩)
  | _ => none

/-- A value that is no array and no object. Its first character tells what it is. -/
def scalar (first : Char) : Reader Json := fun cs =>
  if first = '"' then (string cs).map fun (text, rest) => (Json.string text, rest)
  else if first = 'n' then literal "null" .null cs
  else if first = 't' then literal "true" (.bool true) cs
  else if first = 'f' then literal "false" (.bool false) cs
  else number cs

/-- A value, with blanks before it, in which arrays and objects nest at most `depth` deep. -/
def value (depth : Nat) : Reader Json := fun cs =>
  have := length_skip cs
  match hskip : skip cs with
  | [] => none
  | c :: inside =>
    have : inside.length < (skip cs).length := by rw [hskip]; exact Nat.lt_succ_self _
    match c, depth with
    | '[', 0 => none
    | '\x7b', 0 => none
    | '[', depth + 1 => do
      let (items, ⟨rest, hrest⟩) ← bracketed (value depth) ']' inside
      some (.array items, ⟨rest, by omega⟩)
    | '\x7b', depth + 1 => do
      let (members, ⟨rest, hrest⟩) ← bracketed (member (value depth)) '\x7d' inside
      some (.object members, ⟨rest, by omega⟩)
    | _, _ => do
      let (json, ⟨rest, hrest⟩) ← scalar c (skip cs)
      some (json, ⟨rest, by omega⟩)

end Reader

/-- How deep arrays and objects may nest. -/
def maxDepth : Nat := 127

def parse? (text : String) : Option Json := do
  let (value, rest) ← Reader.value maxDepth text.toList
  if Reader.skip rest = [] then some value else none

end Formula.Json
