import ItemStore.Text.Printable

/-!
# Quoted text

How a text is shown inside a message: between double quotes, with a backslash before a quote or
a backslash, with short escapes for line ends, tabs and the null character, and with the code
point in braces for every other character that does not stand for itself.
-/

namespace ItemStore.Text

/-- The code point of a character in lower-case hexadecimal, in the form `\u{…}`. -/
def codePointEscape (c : Char) : List Char :=
  ['\\', 'u', '\x7b'] ++ Nat.toDigits 16 c.toNat ++ ['\x7d']

/-- How one character is written between quotes. -/
def quotedChar (c : Char) : List Char :=
  if c == '"' then ['\\', '"']
  else if c == '\\' then ['\\', '\\']
  else if c == '\n' then ['\\', 'n']
  else if c == '\t' then ['\\', 't']
  else if c == '\r' then ['\\', 'r']
  else if c == '\x00' then ['\\', '0']
  else if standsForItself c then [c]
  else codePointEscape c

/-- The text between double quotes. -/
def quoted (s : String) : String :=
  String.ofList ('"' :: s.toList.flatMap quotedChar ++ ['"'])

/-- The texts between double quotes, in brackets and separated by commas. -/
def quotedList (ss : List String) : String :=
  "[" ++ ", ".intercalate (ss.map quoted) ++ "]"

end ItemStore.Text
