import ItemStore.Proofs.DoubleText

/-!
# The number that a double is written as

The text of a double is that of a number, `Binary64.written`, which is in general not the number
that the double stands for but one that is rounded to it.  Every text of that number is read as the
double (`Binary64.exists_ofText_of_denotes`).  So reading a number and writing it again keeps the
number if it is one that some double is written as.  The exponents of all these numbers are in
range; a number whose exponent is not is read as zero (`Binary64.ofText_of_place_lt`).
-/

namespace ItemStore

/-! ## Texts of numbers -/

namespace Decimal

variable {t u : String} {v w : ℚ}

/-- The text is that of a number in range. -/
def Denotes (t : String) (v : ℚ) : Prop :=
  ∃ s : Spelling, s.WellFormed ∧ s.InRange ∧ s.text = t ∧ s.value = v

theorem Spelling.WellFormed.denotes {s : Spelling} (hs : s.WellFormed) (h : s.InRange) :
    Denotes s.text s.value := ⟨s, hs, h, rfl, rfl⟩

theorem compareTexts_eq_iff (hv : Denotes t v) (hw : Denotes u w) :
    compareTexts t u = some .eq ↔ v = w := by
  obtain ⟨s, hs, hsrange, rfl, rfl⟩ := hv
  obtain ⟨r, hr, hrrange, rfl, rfl⟩ := hw
  rw [compareTexts_text hs hr hsrange hrrange, Option.some.injEq, compare_eq_iff_eq]

namespace Spelling

variable {s : Spelling}

theorem magnitude_nonneg (s : Spelling) : 0 ≤ s.magnitude := by
  rw [magnitude, mantissa]
  positivity

theorem mantissa_of_value_eq_zero (h : s.value = 0) : s.mantissa = 0 := by
  have hfactor : (Sign.factor s.sign : ℚ) ≠ 0 := by
    match s.sign with
    | none | some .plus | some .minus => simp [Sign.factor]
  have hpower : (10 : ℚ) ^ s.exponent ≠ 0 := zpow_ne_zero _ (by norm_num)
  rw [value, mul_eq_zero, mul_eq_zero] at h
  exact (h.resolve_right hpower).resolve_left hfactor

/-- The place of a number lies between those of its bounds. -/
theorem Legible.inRange_of_bounds (hs : s.Legible) {j k : ℤ} (hj : Fits j) (hk : Fits k)
    (hlow : 10 ^ j ≤ s.magnitude) (hhigh : s.magnitude < 10 ^ k) : s.InRange := by
  intro hmantissa
  have hten : (1 : ℚ) < 10 := by norm_num
  obtain ⟨hfirst, hlast⟩ :=
    magnitude_bounds hs.normal_decimal (hs.digits_decimal_ne_nil hmantissa)
  rw [hs.magnitude_decimal, hs.exponent_decimal hmantissa] at hfirst hlast
  have hge := (zpow_lt_zpow_iff_right₀ hten).mp (hlow.trans_lt hlast)
  have hle := (zpow_lt_zpow_iff_right₀ hten).mp (hfirst.trans_lt hhigh)
  exact ⟨hj.1.trans hge.le, (Int.sub_one_lt_iff.mp hle).trans_lt hk.2⟩

/-- The sign of a number other than zero is the one that is written. -/
theorem of_value_eq {negative : Bool} {x : ℚ} (hx : 0 < x)
    (h : s.value = (if negative then -1 else 1) * x) :
    s.magnitude = x ∧ decide (s.sign = some .minus) = negative := by
  have hpos := s.magnitude_nonneg
  rw [value_eq] at h
  cases negative <;> match hsign : s.sign with
  | none | some .plus | some .minus =>
      simp [hsign, Sign.factor] at h ⊢
      linarith

end Spelling

end Decimal

/-! ## Texts of doubles -/

namespace Binary64

open Decimal (Denotes Power Sign Spelling)

variable {m : ℕ} {q : ℤ} {x : Binary64} {n : Layout} {t : String}

/-- The digits of a double, which are none where it is zero, as a number. -/
def writtenMagnitude (n : Layout) (m : ℕ) (q : ℤ) : ℚ :=
  if m = 0 then 0 else (shortest n.tie m q).value

/-- The number that a finite double is written as. -/
def written (n : Layout) : Binary64 → ℚ
  | finite s m q => (if s then -1 else 1) * writtenMagnitude n m q
  | infinite _ => 0
  | nan => 0

theorem written_zero (n : Layout) (negative : Bool) (q : ℤ) :
    (finite negative 0 q).written n = 0 := mul_zero _

theorem Digits.WrittenAs.wellFormed {d : Digits} {s : Spelling} (h : d.WrittenAs s)
    (hplace : |d.place| ≤ 401) : s.WellFormed := by
  have hexponent := abs_le.mp (h.exponent.trans hplace)
  have hpoint := abs_le.mp (h.point.trans (Int.add_le_add_right hplace 1))
  refine ⟨h.legible.isDigit, h.legible.nonempty, fun p hp => ?_, fun _ => ⟨?_, ?_⟩⟩
  · have hvalue : s.exponent = p.value := by
      rw [Spelling.exponent, Option.mem_def.mp hp]
      rfl
    have hlegible := h.legible.power p hp
    rw [hvalue] at hexponent
    exact ⟨hlegible.mark, hlegible.nonempty, hlegible.isDigit, by omega, by omega⟩
  · omega
  · omega

/-- The digits and the marks of a double are a spelling of the number. -/
theorem exists_spelling (n : Layout) (hbits : m < 2 ^ 53) (hleast : leastPower ≤ q)
    (hgreatest : q ≤ greatestPower) :
    ∃ s : Spelling, s.unsigned = magnitudeText n m q ∧ s.WellFormed ∧ s.InRange ∧
      s.magnitude = writtenMagnitude n m q := by
  rcases Nat.eq_zero_or_pos m with rfl | hm
  · obtain ⟨s, htext, hs, hzero⟩ := exists_zero n q
    refine ⟨s, htext, hs, fun hne => absurd hzero hne, ?_⟩
    rw [Spelling.magnitude, hzero, zero_mul, writtenMagnitude, if_pos rfl]
  · obtain ⟨s, htext, hwritten⟩ := exists_magnitudeText n hm hbits hleast
    obtain ⟨hlow, hhigh⟩ :=
      (captures_shortest n.tie hm hbits hleast).1.ten_zpow_bounds hm hbits hleast hgreatest
    refine ⟨s, htext,
      hwritten.wellFormed (abs_place_shortest_le n.tie hm hbits hleast hgreatest), ?_, ?_⟩
    · rw [← hwritten.value] at hlow hhigh
      exact hwritten.legible.inRange_of_bounds (by decide) (by decide) hlow hhigh
    · rw [hwritten.value, writtenMagnitude, if_neg hm.ne']

/-- The text of a finite double is that of the number. -/
theorem denotes_text (n : Layout) (hfinite : x.isFinite = true) (hcanonical : x.Canonical) :
    Denotes (x.text n) (x.written n) := by
  match x, hfinite with
  | finite negative m q, _ =>
    obtain ⟨s, htext, hs, hrange, hmagnitude⟩ :=
      exists_spelling n hcanonical.1 hcanonical.2.1 hcanonical.2.2.1
    let signed : Spelling := { s with sign := if negative then some .minus else none }
    have hsigned : signed.WellFormed := ⟨hs.isDigit, hs.nonempty, hs.power, hs.point⟩
    have hdenotes := hsigned.denotes hrange
    have hsignedText : signed.text = (finite negative m q).text n := by
      rw [text, ← htext]
      cases negative <;> rfl
    have hvalue : signed.value = (finite negative m q).written n := by
      rw [Spelling.value_eq, written, ← hmagnitude]
      cases negative <;> rfl
    rwa [hsignedText, hvalue] at hdenotes

/-! ## Reading the number -/

theorem ofText_spelling {s : Spelling} (hs : s.Legible) :
    ofText s.text = readUnsigned (decide (s.sign = some .minus)) s.unsigned := by
  have hbare := hs.bare_unsigned
  rw [ofText, Spelling.text, String.toList_ofList]
  cases s.sign with
  | some sign => cases sign <;> rfl
  | none =>
      rw [Sign.text, List.nil_append]
      split
      next heq => exact absurd rfl (hbare '-' (by rw [heq]; rfl)).2
      next heq => exact absurd rfl (hbare '+' (by rw [heq]; rfl)).1
      next => rfl

theorem ofText_of_mantissa_eq_zero {s : Spelling} (hs : s.Legible) (h : s.mantissa = 0) :
    ofText s.text = some (zero (decide (s.sign = some .minus))) := by
  rw [ofText_spelling hs, readUnsigned_unsigned hs, Spelling.mantissa_eq_zero_iff.mp h]
  rfl

/-- A number far below the least double is read as zero. -/
theorem ofText_of_place_lt {s : Spelling} (hs : s.Legible) (hmantissa : s.mantissa ≠ 0)
    (h : s.place < -400) : ofText s.text = some (zero (decide (s.sign = some .minus))) := by
  have hdigits : 0 < Text.digitsValue s.digits :=
    Nat.pos_of_ne_zero (mt Spelling.mantissa_eq_zero_iff.mpr hmantissa)
  obtain ⟨hfirst, -⟩ := scientific_bounds hdigits (s.exponent - s.decimals.length)
  obtain ⟨-, hlast⟩ :=
    Decimal.magnitude_bounds hs.normal_decimal (hs.digits_decimal_ne_nil hmantissa)
  rw [hs.magnitude_decimal, hs.exponent_decimal hmantissa] at hlast
  rw [← s.magnitude_eq] at hfirst
  have hplace := (zpow_lt_zpow_iff_right₀ (by norm_num : (1 : ℚ) < 10)).mp (hfirst.trans_lt hlast)
  rw [ofText_spelling hs, readUnsigned_unsigned hs, ofScientific, if_neg hdigits.ne']
  simp only
  rw [if_neg (by omega), if_pos (by omega)]

/-- Every text of the number that a double is written as is read as the double, where zeros do not
differ in their sign. -/
theorem exists_ofText_of_denotes (hfinite : x.isFinite = true) (hcanonical : x.Canonical)
    (ht : Denotes t (x.written n)) :
    ∃ y, ofText t = some y ∧ y.isFinite = true ∧ y.written n = x.written n := by
  match x, hfinite with
  | finite negative m q, _ =>
    obtain ⟨s, hs, -, rfl, hvalue⟩ := ht
    rcases Nat.eq_zero_or_pos m with rfl | hm
    · rw [written_zero] at hvalue ⊢
      exact ⟨_, ofText_of_mantissa_eq_zero hs.legible (Spelling.mantissa_of_value_eq_zero hvalue),
        rfl, written_zero ..⟩
    · have hcaptures := (captures_shortest n.tie hm hcanonical.1 hcanonical.2.1).1
      rw [written, writtenMagnitude, if_neg hm.ne'] at hvalue
      obtain ⟨hmagnitude, hsign⟩ := Spelling.of_value_eq (hcaptures.pos hm) hvalue
      rw [← hmagnitude] at hcaptures
      refine ⟨_, ?_, rfl, rfl⟩
      rw [ofText_spelling hs.legible, hsign]
      exact readUnsigned_of_captures hs.legible hcanonical hm hcaptures

end Binary64

end ItemStore
