import ItemStore.Json.Numeral

/-!
# Numbers as tagged text

A reader that keeps every number as a double changes large integers. So that a number reaches it
unchanged, plain data may be exchanged with each number written as an object whose only member,
`$num`, holds the text of the number.
-/

namespace ItemStore.Json

/-- The name that marks the text of a number. -/
def numberTag : String := "$num"

mutual

/-- The data with each number as tagged text. -/
def tagged : Json → Json
  | number n => object [(numberTag, string n.text)]
  | array xs => array (taggedElements xs)
  | object ms => object (taggedMembers ms)
  | null => null
  | bool b => bool b
  | string s => string s

def taggedElements : List Json → List Json
  | [] => []
  | x :: xs => tagged x :: taggedElements xs

def taggedMembers : List (String × Json) → List (String × Json)
  | [] => []
  | (name, x) :: ms => (name, tagged x) :: taggedMembers ms

end

/-- What an object with the given members stands for: a number if it is one in tagged form. -/
def ofTaggedObject (ms : List (String × Json)) : Json :=
  match ms with
  | [(name, string text)] =>
      if name = numberTag then ((Number.ofText text).map number).getD (object ms) else object ms
  | _ => object ms

mutual

/-- The data that tagged numbers stand in. -/
def untagged : Json → Json
  | object ms => ofTaggedObject (untaggedMembers ms)
  | array xs => array (untaggedElements xs)
  | number n => number n
  | null => null
  | bool b => bool b
  | string s => string s

def untaggedElements : List Json → List Json
  | [] => []
  | x :: xs => untagged x :: untaggedElements xs

def untaggedMembers : List (String × Json) → List (String × Json)
  | [] => []
  | (name, x) :: ms => (name, untagged x) :: untaggedMembers ms

end

end ItemStore.Json
