import ItemStore.Json

/-!
# Printing JSON

The compact text of a value: no white space, members in the order of the object, and escapes
only where the format requires them.
-/

namespace ItemStore.Json

/-- The escape by code unit of a control character. -/
def unitEscape (c : Char) : List Char :=
  let digits := Nat.toDigits 16 c.toNat
  ['\\', 'u'] ++ List.replicate (4 - digits.length) '0' ++ digits

/-- How one character is written inside a string. -/
def escapedChar (c : Char) : List Char :=
  if c == '"' then ['\\', '"']
  else if c == '\\' then ['\\', '\\']
  else if c == '\n' then ['\\', 'n']
  else if c == '\r' then ['\\', 'r']
  else if c == '\t' then ['\\', 't']
  else if c.toNat < 0x20 then unitEscape c
  else [c]

/-- The text of a string. -/
def stringText (s : String) : String := String.ofList ('"' :: s.toList.flatMap escapedChar ++ ['"'])

mutual

/-- The compact text of a value. -/
def text : Json → String
  | null => "null"
  | bool b => if b then "true" else "false"
  | number n => n.text
  | string s => stringText s
  | array xs => "[" ++ ",".intercalate (elementTexts xs) ++ "]"
  | object ms => "\x7b" ++ ",".intercalate (memberTexts ms) ++ "\x7d"

def elementTexts : List Json → List String
  | [] => []
  | x :: xs => text x :: elementTexts xs

def memberTexts : List (String × Json) → List String
  | [] => []
  | (name, x) :: ms => (stringText name ++ ":" ++ text x) :: memberTexts ms

end

end ItemStore.Json
