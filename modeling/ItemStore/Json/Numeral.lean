import ItemStore.Binary64.Reading
import ItemStore.Json.Source
import ItemStore.Text.Integer

/-!
# JSON numerals

The text of a JSON number: an optional minus sign, digits without a needless leading zero, and
possibly a fraction and a power of ten. A numeral without fraction and power that fits a 64-bit
word denotes that integer, except that a negative zero is a double. Every other numeral is read
as a double with two roundings: its leading digits, as many as fit an unsigned 64-bit word, are
rounded, and the result is scaled by a power of ten and rounded again. A numeral too large for a
double is well formed all the same, and flawed.
-/

namespace ItemStore.Json.Number

/-- The largest unsigned 64-bit integer. -/
def wordLimit : Nat := Nat.pow 2 64 - 1

/-- Take in digits while the number stays within an unsigned word; the digits left over are
returned. -/
def absorb (n : Nat) : List Char → Nat × List Char
  | [] => (n, [])
  | d :: ds =>
      let next := 10 * n + Text.digitValue d
      if wordLimit < next then (n, d :: ds) else absorb next ds

/-- The double nearest to a power of ten of at most 308. -/
def powerOfTen (k : Nat) : Binary64 := Binary64.ofScientific false 1 k

/-- A word scaled by a power of ten; `none` when the result is infinite. -/
def scale (n : Nat) (exponent : Int) : Option Binary64 :=
  let x := Binary64.nearest false n 1
  let k := exponent.natAbs
  if n = 0 then some x
  else if 0 ≤ exponent then
    if k ≤ 308 then
      let y := x.mul (powerOfTen k)
      if y.isFinite then some y else none
    else none
  else if k ≤ 308 then some (x.div (powerOfTen k))
  else if k ≤ 616 then some ((x.div (powerOfTen 308)).div (powerOfTen (k - 308)))
  else some (Binary64.zero false)

/-- The double that digits and a power of ten denote. -/
def doubleOf (negative : Bool) (n : Numeral) (exponent : Int) : Except Flaw Number :=
  let (word, wholeRest) := absorb 0 n.whole
  let (word, fractionRest) := absorb word n.fraction
  let shift : Int := wholeRest.length - (n.fraction.length - fractionRest.length : Nat)
  match scale word (shift + exponent) with
  | some x => .ok (double (x.negateIf negative))
  | none => .error .numberRange

/-- The whole digits of a numeral: at least one, and no leading zero before another digit. -/
def wellFormedWhole : List Char → Bool
  | [] => false
  | ['0'] => true
  | '0' :: _ => false
  | ds => ds.all Char.isDigit

/-- Read an unsigned numeral whose text has the given parts; `hasPoint` tells whether a point
was written. -/
def ofParts (negative hasPoint : Bool) (n : Numeral) : Option (Except Flaw Number) :=
  if !wellFormedWhole n.whole then none
  else if hasPoint && (n.fraction.isEmpty || !n.fraction.all Char.isDigit) then none
  else match n.exponent with
    | some e => (readExponent e).map fun exponent => doubleOf negative n exponent
    | none =>
        let value := Text.digitsValue n.whole
        if hasPoint then some (doubleOf negative n 0)
        else if !negative && value ≤ wordLimit then some (.ok (integer value))
        else if negative && value ≠ 0 && value ≤ Nat.pow 2 63 then some (.ok (integer (-value)))
        else some (doubleOf negative n 0)

/-- Read a numeral; `none` when it is ill-formed. -/
def ofChars (cs : List Char) : Option (Except Flaw Number) :=
  let (negative, body) := match cs with
    | '-' :: r => (true, r)
    | r => (false, r)
  let mantissa := body.takeWhile fun c => !Numeral.isExponentMark c
  ofParts negative (mantissa.contains '.') (Numeral.split body)

/-- The number that a numeral denotes. -/
def ofText (text : String) : Option Number := (ofChars text.toList).bind Except.toOption

end ItemStore.Json.Number
