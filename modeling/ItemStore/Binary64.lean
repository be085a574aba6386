/-!
# Double-precision numbers

A finite double-precision number is a sign, a natural significand and a power of two. The
significand has at most 53 bits and the power lies between -1074 and 971, so each number that a
64-bit word can hold has one canonical form. `Binary64.nearest` rounds any positive quotient to
the closest such number, a tie going to the even significand; products and quotients of doubles
are rounded once by it. All arithmetic is exact arithmetic on naturals.
-/

namespace ItemStore

/-- A double-precision number; `finite s m q` is `m * 2 ^ q`, negated when `s` holds. -/
inductive Binary64 where
  | finite (negative : Bool) (significand : Nat) (power : Int)
  | infinite (negative : Bool)
  | nan
deriving DecidableEq, Hashable

namespace Binary64

/-- The power of two of the smallest positive number. -/
def leastPower : Int := -1074

/-- The power of two of the largest numbers. -/
def greatestPower : Int := 971

/-- The form that every number produced by rounding has. -/
def Canonical : Binary64 → Prop
  | finite _ m q =>
      m < Nat.pow 2 53 ∧ leastPower ≤ q ∧ q ≤ greatestPower ∧ (Nat.pow 2 52 ≤ m ∨ q = leastPower)
  | infinite _ => True
  | nan => True

/-- Zero with a sign. -/
def zero (negative : Bool) : Binary64 := finite negative 0 leastPower

/-- The quotient rounded to a natural number, a half going to the even neighbour. -/
def roundHalfEven (num den : Nat) : Nat :=
  let quotient := num / den
  let rest := 2 * (num % den)
  if rest < den then quotient
  else if den < rest then quotient + 1
  else quotient + quotient % 2

/-- The exponent `e` with `2 ^ e ≤ num / den < 2 ^ (e + 1)`, for positive arguments. -/
def binaryExponent (num den : Nat) : Int :=
  let guess : Int := num.log2 - den.log2
  if num * Nat.pow 2 (-guess).toNat < den * Nat.pow 2 guess.toNat then guess - 1 else guess

/-- The double nearest to `num / den`, with the given sign. -/
def nearest (negative : Bool) (num den : Nat) : Binary64 :=
  if num = 0 then zero negative
  else
    let power := max leastPower (binaryExponent num den - 52)
    let significand := roundHalfEven (num * Nat.pow 2 (-power).toNat) (den * Nat.pow 2 power.toNat)
    let (significand, power) :=
      if significand = Nat.pow 2 53 then (Nat.pow 2 52, power + 1) else (significand, power)
    if greatestPower < power then infinite negative else finite negative significand power

/-- The double nearest to `digits * 10 ^ exponent`. Numbers far outside the range of doubles are
settled by the place of their first digit alone. -/
def ofScientific (negative : Bool) (digits : Nat) (exponent : Int) : Binary64 :=
  if digits = 0 then zero negative
  else
    let place : Int := exponent + (Nat.toDigits 10 digits).length
    if 400 < place then infinite negative
    else if place < -400 then zero negative
    else nearest negative (digits * Nat.pow 10 exponent.toNat) (Nat.pow 10 (-exponent).toNat)

/-- The number with the given sign put in front. -/
def negateIf (flip : Bool) : Binary64 → Binary64
  | finite s m q => finite (s != flip) m q
  | infinite s => infinite (s != flip)
  | nan => nan

/-- A number that is neither infinite nor undefined. -/
def isFinite : Binary64 → Bool
  | finite .. => true
  | _ => false

/-- The product of two finite numbers, rounded once; other products are undefined here. -/
def mul : Binary64 → Binary64 → Binary64
  | finite s m q, finite t n r =>
      let power := q + r
      nearest (s != t) (m * n * Nat.pow 2 power.toNat) (Nat.pow 2 (-power).toNat)
  | _, _ => nan

/-- The quotient of two finite numbers, rounded once; other quotients are undefined here. -/
def div : Binary64 → Binary64 → Binary64
  | finite s m q, finite t n r =>
      if n = 0 then nan
      else
        let power := q - r
        nearest (s != t) (m * Nat.pow 2 power.toNat) (n * Nat.pow 2 (-power).toNat)
  | _, _ => nan

end Binary64

end ItemStore
