import ItemStore.Proofs.Decimal
import Mathlib.Tactic.Ring

/-!
# How numbers are written

A number is written as an optional sign, digits around an optional point, and an optional power of
ten.  A `Spelling` has these parts, from which its text and the rational number that it denotes are
read off.  Zeros at either end of a run of digits move the point or count for nothing
(`fraction_significant`), and the text of a legible spelling is cut back into its parts
(`Legible.split_unsigned`).
-/

namespace ItemStore.Decimal

/-- A written sign. -/
inductive Sign where
  | plus
  | minus
deriving DecidableEq

namespace Sign

/-- The text of a sign, which may be left out. -/
def text : Option Sign → List Char
  | none => []
  | some plus => ['+']
  | some minus => ['-']

/-- The factor that a sign stands for. -/
def factor : Option Sign → ℤ
  | some minus => -1
  | none | some plus => 1

end Sign

/-- The integers of a signed word of 64 bits. -/
def Fits (i : ℤ) : Prop := -2 ^ 63 ≤ i ∧ i < 2 ^ 63

instance (i : ℤ) : Decidable (Fits i) := inferInstanceAs (Decidable (_ ∧ _))

/-- A written power of ten. -/
structure Power where
  mark : Char
  sign : Option Sign
  digits : List Char

namespace Power

/-- The power after its mark. -/
def numeral (p : Power) : List Char := Sign.text p.sign ++ p.digits

/-- The exponent. -/
def value (p : Power) : ℤ := Sign.factor p.sign * Text.digitsValue p.digits

structure WellFormed (p : Power) : Prop where
  mark : p.mark = 'e' ∨ p.mark = 'E'
  nonempty : p.digits ≠ []
  isDigit : ∀ c ∈ p.digits, c.isDigit = true
  fits : Fits p.value

/-- A power of any size. -/
structure Legible (p : Power) : Prop where
  mark : p.mark = 'e' ∨ p.mark = 'E'
  nonempty : p.digits ≠ []
  isDigit : ∀ c ∈ p.digits, c.isDigit = true

theorem WellFormed.legible {p : Power} (hp : p.WellFormed) : p.Legible :=
  ⟨hp.mark, hp.nonempty, hp.isDigit⟩

end Power

/-- A way to write a number.  The fraction is what stands after the point, if there is one. -/
structure Spelling where
  sign : Option Sign
  whole : List Char
  fraction : Option (List Char)
  power : Option Power

namespace Spelling

variable (s : Spelling)

/-- The digits after the point. -/
def decimals : List Char := s.fraction.getD []

/-- All digits before the power of ten. -/
def digits : List Char := s.whole ++ s.decimals

def exponent : ℤ := s.power.elim 0 Power.value

/-- The digits and the point. -/
def body : List Char := s.whole ++ s.fraction.elim [] ('.' :: ·)

def unsigned : List Char := s.body ++ s.power.elim [] fun p => p.mark :: p.numeral

def text : String := String.ofList (Sign.text s.sign ++ s.unsigned)

/-- The number that the digits around the point denote. -/
def mantissa : ℚ := Text.digitsValue s.digits / 10 ^ s.decimals.length

/-- The number without its sign. -/
def magnitude : ℚ := s.mantissa * 10 ^ s.exponent

/-- The number that is written. -/
def value : ℚ := Sign.factor s.sign * s.mantissa * 10 ^ s.exponent

/-- At least one digit stands around the point, and nothing but digits.  The exponent fits a word,
and for a number other than zero so does the place of the point. -/
structure WellFormed : Prop where
  isDigit : ∀ c ∈ s.digits, c.isDigit = true
  nonempty : s.digits ≠ []
  power : ∀ p ∈ s.power, p.WellFormed
  point : s.mantissa ≠ 0 → Fits (s.whole.length + s.exponent)

/-- The exponent of the number when its significant digits are written after the point. -/
def place : ℤ :=
  s.whole.length + s.exponent - (s.digits.takeWhile (· == '0')).length

/-- A word holds that exponent.  Zero has no significant digits and is always in range. -/
def InRange : Prop := s.mantissa ≠ 0 → Fits s.place

/-- The one form of the number that is written, with an exponent of any size. -/
def decimal : Decimal :=
  if significant s.digits = [] then zero
  else ⟨decide (s.sign = some .minus), significant s.digits, s.place⟩

/-- A spelling of a number of any size. -/
structure Legible : Prop where
  isDigit : ∀ c ∈ s.digits, c.isDigit = true
  nonempty : s.digits ≠ []
  power : ∀ p ∈ s.power, p.Legible

variable {s} in
theorem WellFormed.legible (hs : s.WellFormed) : s.Legible :=
  ⟨hs.isDigit, hs.nonempty, fun p hp => (hs.power p hp).legible⟩

end Spelling

/-! ## Runs of digits -/

theorem foldl_digits (ds : List Char) (n : ℕ) :
    ds.foldl (fun n c => 10 * n + Text.digitValue c) n =
      n * 10 ^ ds.length + Text.digitsValue ds := by
  induction ds generalizing n with
  | nil => simp [Text.digitsValue]
  | cons c cs ih =>
      have hcons : Text.digitsValue (c :: cs) =
          (10 * 0 + Text.digitValue c) * 10 ^ cs.length + Text.digitsValue cs := ih _
      rw [List.foldl_cons, ih, hcons, List.length_cons]
      ring

theorem digitsValue_cons (c : Char) (cs : List Char) :
    Text.digitsValue (c :: cs) = Text.digitValue c * 10 ^ cs.length + Text.digitsValue cs := by
  rw [Text.digitsValue, List.foldl_cons, foldl_digits]
  simp

/-- Digits after the point denote their number, divided by a power of ten. -/
theorem fraction_eq (ds : List Char) :
    fraction ds = Text.digitsValue ds / 10 ^ ds.length := by
  induction ds with
  | nil => simp [fraction, Text.digitsValue]
  | cons c cs ih =>
      rw [fraction, ih, digitsValue_cons, List.length_cons]
      push_cast
      field_simp
      ring

theorem fraction_zeros {zs : List Char} (h : ∀ c ∈ zs, c = '0') : fraction zs = 0 := by
  induction zs with
  | nil => rfl
  | cons c cs ih =>
      rw [fraction, ih fun d hd => h d (List.mem_cons_of_mem _ hd), h c List.mem_cons_self]
      simp [Text.digitValue]

/-- Zeros at the end count for nothing. -/
theorem fraction_append_zeros (ds : List Char) {zs : List Char} (h : ∀ c ∈ zs, c = '0') :
    fraction (ds ++ zs) = fraction ds := by
  induction ds with
  | nil => exact fraction_zeros h
  | cons c cs ih => rw [List.cons_append, fraction, ih, fraction]

/-- Each zero at the beginning divides by ten. -/
theorem fraction_dropWhile (ds : List Char) :
    fraction ds =
      fraction (ds.dropWhile (· == '0')) / 10 ^ (ds.takeWhile (· == '0')).length := by
  induction ds with
  | nil => simp [fraction]
  | cons c cs ih =>
      by_cases hc : c = '0'
      · subst hc
        rw [List.dropWhile_cons_of_pos rfl, List.takeWhile_cons_of_pos rfl, fraction, ih,
          List.length_cons, pow_succ]
        simp [Text.digitValue, div_div]
      · have hne : (c == '0') = false := beq_eq_false_iff_ne.mpr hc
        simp [hne]

/-- The significant digits denote the same number, with the point moved to the first one. -/
theorem fraction_significant (ds : List Char) :
    fraction (significant ds) = fraction ds * 10 ^ (ds.takeWhile (· == '0')).length := by
  have hzeros : ∀ c ∈ (ds.dropWhile (· == '0')).rtakeWhile (· == '0'), c = '0' := by
    intro c hc
    exact beq_iff_eq.mp (List.mem_rtakeWhile_imp (p := (· == '0')) hc)
  have htrim : fraction (significant ds) = fraction (ds.dropWhile (· == '0')) := by
    have hsplit : significant ds ++ (ds.dropWhile (· == '0')).rtakeWhile (· == '0') =
        ds.dropWhile (· == '0') := List.rdropWhile_append_rtakeWhile
    rw [← hsplit, fraction_append_zeros _ hzeros]
  rw [htrim, fraction_dropWhile ds]
  field_simp

theorem significant_eq_nil_iff {ds : List Char} (h : ∀ c ∈ ds, c.isDigit = true) :
    significant ds = [] ↔ Text.digitsValue ds = 0 := by
  have hfraction := fraction_significant ds
  rw [fraction_eq ds] at hfraction
  constructor
  · intro hnil
    rw [hnil, fraction] at hfraction
    field_simp at hfraction
    simpa using hfraction.symm
  · intro hzero
    by_contra hne
    have hpos := fraction_pos (fun c hc => h c (mem_of_mem_significant hc))
      (getLast?_significant ds) hne
    rw [hfraction, hzero] at hpos
    simp at hpos

/-! ## The parts of a text -/

theorem isExponentMark_eq_true_iff (c : Char) :
    Numeral.isExponentMark c = true ↔ c = 'e' ∨ c = 'E' := by
  simp [Numeral.isExponentMark]

theorem not_isExponentMark_of_isDigit {c : Char} (h : c.isDigit = true) :
    Numeral.isExponentMark c = false := by
  by_contra hmark
  rw [Bool.not_eq_false, isExponentMark_eq_true_iff] at hmark
  rcases hmark with rfl | rfl <;> exact absurd h (by decide)

theorem ne_point_of_isDigit {c : Char} (h : c.isDigit = true) : c ≠ '.' := by
  rintro rfl
  exact absurd h (by decide)

namespace Spelling

variable {s : Spelling}

theorem isDigit_whole (hs : ∀ c ∈ s.digits, c.isDigit = true) :
    ∀ c ∈ s.whole, c.isDigit = true :=
  fun c hc => hs c (List.mem_append_left _ hc)

theorem isDigit_or_point_of_mem_body (hs : ∀ c ∈ s.digits, c.isDigit = true) :
    ∀ c ∈ s.body, c.isDigit = true ∨ c = '.' := by
  intro c hc
  rcases List.mem_append.mp hc with hc | hc
  · exact Or.inl (isDigit_whole hs c hc)
  · cases hfraction : s.fraction with
    | none =>
        rw [hfraction] at hc
        cases hc
    | some ds =>
        rw [hfraction] at hc
        rcases List.mem_cons.mp hc with rfl | hc
        · exact Or.inr rfl
        · exact Or.inl (hs c (List.mem_append_right _ (by simpa [decimals, hfraction] using hc)))

theorem not_isExponentMark_of_mem_body (hs : ∀ c ∈ s.digits, c.isDigit = true) :
    ∀ c ∈ s.body, (!Numeral.isExponentMark c) = true := by
  intro c hc
  rcases isDigit_or_point_of_mem_body hs c hc with hdigit | rfl
  · rw [not_isExponentMark_of_isDigit hdigit]
    rfl
  · rfl

/-- The body ends where the power of ten begins. -/
theorem Legible.takeWhile_unsigned (hs : s.Legible) :
    s.unsigned.takeWhile (fun c => !Numeral.isExponentMark c) = s.body := by
  rw [unsigned, List.takeWhile_append_of_pos (not_isExponentMark_of_mem_body hs.isDigit)]
  cases hpower : s.power with
  | none => simp
  | some p =>
      have hmark := (isExponentMark_eq_true_iff p.mark).mpr (hs.power p hpower).mark
      simp [hmark]

theorem Legible.dropWhile_unsigned (hs : s.Legible) :
    s.unsigned.dropWhile (fun c => !Numeral.isExponentMark c) =
      s.power.elim [] fun p => p.mark :: p.numeral := by
  rw [unsigned, List.dropWhile_append_of_pos (not_isExponentMark_of_mem_body hs.isDigit)]
  cases hpower : s.power with
  | none => simp
  | some p =>
      have hmark := (isExponentMark_eq_true_iff p.mark).mpr (hs.power p hpower).mark
      simp [hmark]

/-- The whole digits end where the point stands. -/
theorem split_body (hs : ∀ c ∈ s.digits, c.isDigit = true) :
    s.body.takeWhile (· != '.') = s.whole ∧ (s.body.dropWhile (· != '.')).drop 1 = s.decimals := by
  have hwhole : ∀ c ∈ s.whole, (c != '.') = true := by
    intro c hc
    exact bne_iff_ne.mpr (ne_point_of_isDigit (isDigit_whole hs c hc))
  rw [body, List.takeWhile_append_of_pos hwhole, List.dropWhile_append_of_pos hwhole, decimals]
  cases s.fraction with
  | none => simp
  | some ds => simp

/-- A text is cut into the parts that it is made of. -/
theorem Legible.split_unsigned (hs : s.Legible) :
    Numeral.split s.unsigned = ⟨s.whole, s.decimals, s.power.map Power.numeral⟩ := by
  obtain ⟨hwhole, hdecimals⟩ := split_body hs.isDigit
  rw [Numeral.split, hs.takeWhile_unsigned, hs.dropWhile_unsigned, hwhole, hdecimals]
  cases s.power <;> rfl

end Spelling

end ItemStore.Decimal
