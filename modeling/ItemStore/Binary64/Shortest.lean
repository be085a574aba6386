import ItemStore.Binary64

/-!
# The fewest digits that identify a double

The numbers that round to a double form an interval around it. `Binary64.shortest` looks for the
coarsest decimal grid with a point in that interval and takes the grid point nearest to the
number. `Layout` states how the digits are laid out: where positional notation ends, whether
an integral value keeps a point, and which of two equally near points is taken.
-/

namespace ItemStore.Binary64

/-- Which of two equally near grid points is taken. -/
inductive TieRule where
  | toEven
  | upward
deriving DecidableEq

/-- How the digits of a number are written. -/
structure Layout where
  /-- Numbers whose first digit stands at a place in this range are written positionally; without
  a range, all are. -/
  positional : Option (Int × Int)
  /-- An integral value written positionally ends in `.0`. -/
  pointZero : Bool
  tie : TieRule
deriving DecidableEq

/-- Decimal digits, the first of which stands at the given power of ten. -/
structure Digits where
  digits : List Char
  place : Int
deriving DecidableEq

/-- Whether `10 ^ e` is at most `m * 2 ^ q`. -/
def powerOfTenLe (e : Int) (m : Nat) (q : Int) : Bool :=
  decide (Nat.pow 10 e.toNat * Nat.pow 2 (-q).toNat ≤ m * Nat.pow 2 q.toNat * Nat.pow 10 (-e).toNat)

/-- The power of ten of the first digit of `m * 2 ^ q`, for a positive significand. The guess
uses 1233 / 4096 for the decimal logarithm of two, which is never off by more than one. -/
def leadingPlace (m : Nat) (q : Int) : Int :=
  let guess := ((m.log2 : Int) + q) * 1233 / 4096
  if powerOfTenLe (guess + 1) m q then guess + 1
  else if powerOfTenLe guess m q then guess
  else guess - 1

/-- Whether the lower neighbour of `m * 2 ^ q` is only half as far away as the upper one. -/
def lowerGapIsNarrow (m : Nat) (q : Int) : Bool := m == Nat.pow 2 52 && decide (leastPower < q)

/-- A cell of the grid `10 ^ place`, on a scale on which a quarter of `2 ^ q` is
`quarterUnit q place`. -/
def cellUnit (q place : Int) : Nat := Nat.pow 10 place.toNat * Nat.pow 2 (-(q - 2)).toNat

/-- A quarter of `2 ^ q`, on the scale of `cellUnit q place`. -/
def quarterUnit (q place : Int) : Nat := Nat.pow 2 (q - 2).toNat * Nat.pow 10 (-place).toNat

/-- Whether a point of the grid `10 ^ place` identifies `m * 2 ^ q`. The ends of the interval
belong to it when the significand is even. -/
def identifies (m : Nat) (q place : Int) (point : Nat) : Bool :=
  let here := point * cellUnit q place
  let low := (4 * m - if lowerGapIsNarrow m q then 1 else 2) * quarterUnit q place
  let high := (4 * m + 2) * quarterUnit q place
  if m % 2 = 0 then decide (low ≤ here) && decide (here ≤ high)
  else decide (low < here) && decide (here < high)

/-- The last point of the grid `10 ^ place` that is not above `m * 2 ^ q`. -/
def pointBelow (m : Nat) (q place : Int) : Nat := 4 * m * quarterUnit q place / cellUnit q place

/-- The nearer one of the two grid points around `m * 2 ^ q`. -/
def nearerPoint (tie : TieRule) (m : Nat) (q place : Int) : Nat :=
  let value := 4 * m * quarterUnit q place
  let below := pointBelow m q place
  let above := below + 1
  let down := value - below * cellUnit q place
  let up := above * cellUnit q place - value
  if down < up then below
  else if up < down then above
  else match tie with
    | .upward => above
    | .toEven => if below % 2 = 0 then below else above

/-- The point of the grid `10 ^ place` that identifies `m * 2 ^ q`, if one of the two around it
does. -/
def gridPoint? (tie : TieRule) (m : Nat) (q place : Int) : Option Nat :=
  let below := pointBelow m q place
  let above := below + 1
  match identifies m q place below, identifies m q place above with
  | false, false => none
  | true, false => some below
  | false, true => some above
  | true, true => some (nearerPoint tie m q place)

/-- Digits without the zeros at their end. -/
def dropTrailingZeros (ds : List Char) : List Char :=
  (ds.reverse.dropWhile (· == '0')).reverse

/-- A point that identifies `m * 2 ^ q` on the coarsest grid that has one, and the place of that
grid. -/
def coarsestPoint? (tie : TieRule) (m : Nat) (q : Int) : Option (Nat × Int) :=
  let lead := leadingPlace m q
  (List.range 17).findSome? fun (n : Nat) =>
    (gridPoint? tie m q (lead - n)).map fun point => (point, lead - (n : Int))

/-- The fewest digits that identify `m * 2 ^ q`, for a positive significand. Seventeen digits
always suffice. -/
def shortest (tie : TieRule) (m : Nat) (q : Int) : Digits :=
  let (point, place) := (coarsestPoint? tie m q).getD (m, q)
  let ds := Nat.toDigits 10 point
  ⟨dropTrailingZeros ds, place + ds.length - 1⟩

/-- A run of zeros. -/
def zeros (n : Nat) : List Char := List.replicate n '0'

/-- Digits laid out positionally. -/
def positionalText (pointZero : Bool) (d : Digits) : List Char :=
  if d.place < 0 then '0' :: '.' :: (zeros ((-d.place).toNat - 1) ++ d.digits)
  else
    let whole := d.place.toNat + 1
    if d.digits.length ≤ whole then
      d.digits ++ zeros (whole - d.digits.length) ++ (if pointZero then ['.', '0'] else [])
    else d.digits.take whole ++ '.' :: d.digits.drop whole

/-- Digits laid out with one digit before the point and a signed power of ten. -/
def scientificText (d : Digits) : List Char :=
  let fraction := d.digits.drop 1
  d.digits.take 1 ++ (if fraction.isEmpty then [] else '.' :: fraction) ++
    'e' :: (if d.place < 0 then '-' else '+') :: Nat.toDigits 10 d.place.natAbs

/-- The text of `m * 2 ^ q` in a layout. -/
def magnitudeText (n : Layout) (m : Nat) (q : Int) : List Char :=
  if m = 0 then '0' :: (if n.pointZero then ['.', '0'] else [])
  else
    let d := shortest n.tie m q
    match n.positional with
    | none => positionalText n.pointZero d
    | some (low, high) =>
        if low ≤ d.place ∧ d.place ≤ high then positionalText n.pointZero d
        else scientificText d

/-- The text of a number in a layout. -/
def text (n : Layout) : Binary64 → String
  | nan => "NaN"
  | infinite s => if s then "-inf" else "inf"
  | finite s m q =>
      let magnitude := magnitudeText n m q
      String.ofList (if s then '-' :: magnitude else magnitude)

/-- Exchange layout: positional from the fifth decimal place to sixteen digits before the
point, a point in every positional text, and otherwise a signed power of ten. -/
def exchange : Layout := ⟨some (-5, 15), true, .toEven⟩

/-- Plain layout: never a power of ten, and no point in an integral value. -/
def plain : Layout := ⟨none, false, .upward⟩

end ItemStore.Binary64
