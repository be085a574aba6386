import ItemStore.Binary64.Reading

/-!
# Exact decimal numbers

Stored numbers are decimal texts of any length, and they are compared as written, without
rounding. A number is kept as a sign, its significant digits and an exponent, and stands for
`0.digits * 10 ^ exponent`; the digits neither begin nor end with a zero, and zero has none. So
each value has one form, which `Decimal.canonical` writes down. The exponent is held in a word
of 64 bits, which is the exact one as long as it fits.
-/

namespace ItemStore

/-- A decimal number `0.digits * 10 ^ exponent`, negated when `negative` holds. -/
structure Decimal where
  negative : Bool
  digits : List Char
  exponent : Int
deriving DecidableEq

namespace Decimal

/-- The number zero. -/
def zero : Decimal := ⟨false, [], 0⟩

/-- Digits without the zeros at their two ends. -/
def significant (ds : List Char) : List Char :=
  ((ds.dropWhile (· == '0')).reverse.dropWhile (· == '0')).reverse

/-- The exponents that a numeral may carry. -/
def exponentRange : Text.IntRange := .signed 64

/-- The exponent as a word holds it, which wraps around at both ends of the range. -/
def wrapExponent (e : Int) : Int := e.bmod (Nat.pow 2 64)

/-- Read an unsigned numeral. The written exponent must be in range, and for a number other
than zero so must be the place of the point, the exponent plus the count of whole digits.
The zeros before the first significant digit are then subtracted without such a check. -/
def readUnsigned (negative : Bool) (cs : List Char) : Option Decimal :=
  let n := Numeral.split cs
  let exponent := match n.exponent with
    | none => some 0
    | some e => exponentRange.read (String.ofList e)
  exponent.bind fun e =>
    if n.digitsOnly then
      let leadingZeros := (n.digits.takeWhile (· == '0')).length
      let ds := significant n.digits
      if ds.isEmpty then some zero
      else (exponentRange.within (n.whole.length + e)).map fun point =>
        ⟨negative, ds, wrapExponent (point - leadingZeros)⟩
    else none

/-- Read a number: an optional sign and a numeral. -/
def ofText (text : String) : Option Decimal :=
  match text.toList with
  | '-' :: cs => readUnsigned true cs
  | '+' :: cs => readUnsigned false cs
  | cs => readUnsigned false cs

/-- The sign of the number as -1, 0 or 1. -/
def sign (d : Decimal) : Int :=
  if d.digits.isEmpty then 0 else if d.negative then -1 else 1

/-- The order of two absolute values, for numbers other than zero. -/
def compareMagnitude (a b : Decimal) : Ordering :=
  (compare a.exponent b.exponent).then (compare a.digits b.digits)

/-- The numeric order of two numbers. -/
def compare (a b : Decimal) : Ordering :=
  match Ord.compare a.sign b.sign with
  | .eq => if a.negative then compareMagnitude b a else compareMagnitude a b
  | unequal => unequal

/-- The numeric order of two texts, when both are numbers. -/
def compareTexts (a b : String) : Option Ordering := do
  let x ← ofText a
  let y ← ofText b
  return x.compare y

/-- The one written form of a number. -/
def toText (d : Decimal) : String :=
  if d.digits.isEmpty then "0"
  else
    let body := "0." ++ String.ofList d.digits ++ "e" ++ toString d.exponent
    if d.negative then "-" ++ body else body

/-- One spelling for each numeric value; a text that is no number stays as it is. -/
def canonical (text : String) : String :=
  match ofText text with
  | none => text
  | some d => d.toText

end Decimal

end ItemStore
