import Formula.Decimal.Shortest
import Formula.Json.Basic
import Formula.NameMap

/-! The text of a JSON value: without spaces, members in ascending order of their
names, and of members with one name only the last. -/
namespace Formula.Json

/-- A quote, a backslash and the characters below the space are escaped, the others stand for
themselves. -/
def escaped (c : Char) : List Char :=
  match c with
  | '"' => ['\\', '"']
  | '\\' => ['\\', '\\']
  | '\n' => ['\\', 'n']
  | '\r' => ['\\', 'r']
  | '\t' => ['\\', 't']
  | '\x08' => ['\\', 'b']
  | '\x0c' => ['\\', 'f']
  | c =>
    if c < ' ' then
      ['\\', 'u', '0', '0', Nat.digitChar (c.toNat / 16), Nat.digitChar (c.toNat % 16)]
    else [c]

def quoted (text : String) : List Char := '"' :: text.toList.flatMap escaped ++ ['"']

/-- Floats have a fraction or an exponent: all places where the first digit counts between
`10 ^ -5` and `10 ^ 15`, and a power of ten outside. -/
def magnitudeText (m : Magnitude) : List Char :=
  let d := m.shortest .even
  if -5 ≤ d.leadingExponent ∧ d.leadingExponent ≤ 15 then
    d.whole ++ '.' :: if d.fraction = [] then ['0'] else d.fraction
  else d.scientific

/-- JSON has no word for a float that is not finite. -/
def floatText (x : Float) : List Char :=
  match FloatShape.ofFloat x with
  | .finite minus m => (if minus then ['-'] else []) ++ magnitudeText m
  | _ => "null".toList

def commaSeparated (texts : List (List Char)) : List Char := [','].intercalate texts

mutual

def chars : Json → List Char
  | .null => "null".toList
  | .bool value => (if value then "true" else "false").toList
  | .unsigned value => Nat.toDigits 10 value.toNat
  | .negative magnitude => '-' :: Nat.toDigits 10 magnitude
  | .float value => floatText value
  | .string text => quoted text
  | .array items => '[' :: commaSeparated (itemChars items) ++ [']']
  | .object members =>
    let entries := (NameMap.ofList (memberChars members)).entries
    let written := entries.map fun (name, value) => quoted name ++ ':' :: value
    '\x7b' :: commaSeparated written ++ ['\x7d']
termination_by structural value => value

def itemChars : List Json → List (List Char)
  | [] => []
  | item :: rest => item.chars :: itemChars rest
termination_by structural items => items

def memberChars : List (String × Json) → List (String × List Char)
  | [] => []
  | (name, value) :: rest => (name, value.chars) :: memberChars rest
termination_by structural members => members

end

def text (value : Json) : String := String.ofList value.chars

end Formula.Json
