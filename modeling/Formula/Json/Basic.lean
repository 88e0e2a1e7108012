/-! JSON values. -/
namespace Formula

inductive Json where
  | null
  | bool (value : Bool)
  /-- An integer that fits an unsigned word. -/
  | unsigned (value : UInt64)
  /-- An integer below zero that fits a signed word. -/
  | negative (magnitude : Nat)
  | float (value : Float)
  | string (text : String)
  | array (items : List Json)
  /-- The members in the order of the text; a name may occur more than once. -/
  | object (members : List (String × Json))

end Formula
