/-!
# Integers written in decimal

`IntRange` is an interval of integers, such as the values of a 32-bit word, and
`IntRange.read` reads the decimal text of one of its members: an optional sign, then at least
one digit. A minus sign is refused where the interval holds no negative number.
-/

namespace ItemStore.Text

/-- The value of one ASCII digit. -/
def digitValue (c : Char) : Nat := c.toNat - '0'.toNat

/-- The number that a run of digits denotes, most significant digit first. -/
def digitsValue (ds : List Char) : Nat := ds.foldl (fun n c => 10 * n + digitValue c) 0

/-- The number that a non-empty run of ASCII digits denotes. -/
def readDigits (ds : List Char) : Option Nat :=
  if !ds.isEmpty && ds.all Char.isDigit then some (digitsValue ds) else none

/-- An interval of integers. -/
structure IntRange where
  low : Int
  high : Int
deriving DecidableEq

namespace IntRange

/-- The values of a signed word of the given width. -/
def signed (bits : Nat) : IntRange :=
  ⟨-Int.ofNat (Nat.pow 2 (bits - 1)), Int.ofNat (Nat.pow 2 (bits - 1)) - 1⟩

/-- The values of an unsigned word of the given width. -/
def unsigned (bits : Nat) : IntRange := ⟨0, Int.ofNat (Nat.pow 2 bits) - 1⟩

/-- Whether the interval holds the integer. -/
def holds (r : IntRange) (i : Int) : Bool := decide (r.low ≤ i) && decide (i ≤ r.high)

/-- The integer, provided that the interval holds it. -/
def within (r : IntRange) (i : Int) : Option Int := if r.holds i then some i else none

/-- Read a decimal text of a member: an optional sign, then digits. -/
def read (r : IntRange) (text : String) : Option Int :=
  match text.toList with
  | '+' :: ds => (readDigits ds).bind fun n => r.within n
  | '-' :: ds => if 0 ≤ r.low then none else (readDigits ds).bind fun n => r.within (-n)
  | ds => (readDigits ds).bind fun n => r.within n

theorem holds_of_read {r : IntRange} {text : String} {i : Int} (h : r.read text = some i) :
    r.holds i = true := by
  have key : ∀ {o : Option Nat} {f : Nat → Int},
      (o.bind fun n => r.within (f n)) = some i → r.holds i = true := by
    intro o f h
    obtain ⟨n, -, hn⟩ := Option.bind_eq_some_iff.1 h
    unfold within at hn
    split at hn <;> simp_all
  unfold read at h
  split at h
  · exact key h
  · split at h
    · simp at h
    · exact key h
  · exact key h

end IntRange

end ItemStore.Text
