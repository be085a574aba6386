import ItemStore.Binary64
import ItemStore.Text.Integer

/-!
# Reading doubles

The text of a double is an optional sign followed either by a decimal numeral (digits with at
most one point, at least one digit, and possibly a power of ten) or by a name of infinity or of
the undefined number, in any letter case. A numeral denotes the double nearest to its value.
-/

namespace ItemStore

/-- The parts of a decimal numeral: the digits before and after the point, and the text after
the exponent mark. -/
structure Numeral where
  whole : List Char
  fraction : List Char
  exponent : Option (List Char)
deriving DecidableEq

namespace Numeral

/-- The mark between the digits of a numeral and its power of ten. -/
def isExponentMark (c : Char) : Bool := c == 'e' || c == 'E'

/-- Cut an unsigned text at its exponent mark and at its first point. -/
def split (cs : List Char) : Numeral :=
  let mantissa := cs.takeWhile fun c => !isExponentMark c
  let exponent := match cs.dropWhile fun c => !isExponentMark c with
    | [] => none
    | _ :: r => some r
  ⟨mantissa.takeWhile (· != '.'), (mantissa.dropWhile (· != '.')).drop 1, exponent⟩

/-- All digits of the numeral. -/
def digits (n : Numeral) : List Char := n.whole ++ n.fraction

/-- At least one digit stands around the point, and nothing else does. -/
def digitsOnly (n : Numeral) : Bool := !n.digits.isEmpty && n.digits.all Char.isDigit

end Numeral

/-- Read a power of ten: an optional sign and at least one digit. -/
def readExponent : List Char → Option Int
  | '+' :: ds => (Text.readDigits ds).map Int.ofNat
  | '-' :: ds => (Text.readDigits ds).map fun n => -Int.ofNat n
  | ds => (Text.readDigits ds).map Int.ofNat

namespace Binary64

/-- Read an unsigned numeral or name. -/
def readUnsigned (negative : Bool) (cs : List Char) : Option Binary64 :=
  let n := Numeral.split cs
  let exponent := match n.exponent with
    | none => some 0
    | some e => readExponent e
  match n.digitsOnly, exponent with
  | true, some e =>
      some (ofScientific negative (Text.digitsValue n.digits) (e - n.fraction.length))
  | _, _ =>
      let name := String.ofList (cs.map Char.toLower)
      if name == "inf" || name == "infinity" then some (infinite negative)
      else if name == "nan" then some nan
      else none

/-- Read the text of a double. -/
def ofText (text : String) : Option Binary64 :=
  match text.toList with
  | '-' :: cs => readUnsigned true cs
  | '+' :: cs => readUnsigned false cs
  | cs => readUnsigned false cs

end Binary64

end ItemStore
