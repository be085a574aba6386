import ItemStore.Text.Integer

/-!
# Positions at the end of messages

A message about a text may end in a position, as in `unexpected comma at line 3 column 14`. Lines
are counted from one, so line zero stands for no position. `positioned` writes a message anew: a
position in line zero is left out, and the numbers of any other lose their leading zeros.
-/

namespace ItemStore.Text

/-- What is before a mark at the end of a text. The text is given from its end, and so is the
answer. -/
def before? (mark : String) (reversed : List Char) : Option (List Char) :=
  let m := mark.toList.reverse
  if m.isPrefixOf reversed then some (reversed.drop m.length) else none

/-- The number at the end of a text and what is before it, the text and the answer given from
their ends. The number must fit an unsigned 64-bit word. -/
def ordinal? (reversed : List Char) : Option (Nat × List Char) := do
  let n ← readDigits (reversed.takeWhile Char.isDigit).reverse
  if n < Nat.pow 2 64 then some (n, reversed.dropWhile Char.isDigit) else none

/-- The message without the position at its end, the line and the column. -/
def position? (message : String) : Option (String × Nat × Nat) := do
  let (column, rest) ← ordinal? message.toList.reverse
  let rest ← before? " column " rest
  let (line, rest) ← ordinal? rest
  let rest ← before? " at line " rest
  some (String.ofList rest.reverse, line, column)

/-- The message with the position at its end in its normal form. -/
def positioned (message : String) : String :=
  match position? message with
  | none => message
  | some (text, 0, _) => text
  | some (text, line, column) =>
      text ++ " at line " ++ toString line ++ " column " ++ toString column

end ItemStore.Text
