import ItemStore.Proofs.FifteenDigits
import ItemStore.Proofs.PlainData

/-!
# Numbers that reading and writing keep

A stored number is read as an integer of 64 bits where it is written as one, and else as the nearest
double.  Writing what was read yields the number again exactly if it was such an integer or is the
number that some double is written as (`Value.number_kept_iff`); a number of at most fifteen digits
in the normal range always is.  Any other number is replaced by a neighbour without an error
(`Value.number_not_kept`).
-/

namespace ItemStore

/-! ## Integers -/

namespace Decimal.Spelling

variable {r : Text.IntRange} {s : Spelling} {i : ℤ}

/-- An integer is written without a point and without a power of ten. -/
theorem unsigned_of_read (hs : s.Legible) (h : r.read s.text = some i) :
    s.decimals = [] ∧ s.power = none ∧ s.unsigned = s.whole := by
  have hmem : ∀ c ∈ s.unsigned, c ≠ '+' → c ≠ '-' → c.isDigit = true := by
    intro c hc hplus hminus
    by_contra hdigit
    have htext : c ∈ s.text.toList := by
      rw [text, String.toList_ofList]
      exact List.mem_append_right _ hc
    rw [Text.IntRange.read_eq_none htext hplus hminus (Bool.eq_false_iff.mpr hdigit)] at h
    cases h
  have hfraction : s.fraction = none := by
    cases hfraction : s.fraction with
    | none => rfl
    | some ds =>
        have hpoint : '.' ∈ s.unsigned := by simp [unsigned, body, hfraction]
        exact absurd (hmem '.' hpoint (by decide) (by decide)) (by decide)
  have hpower : s.power = none := by
    cases hpower : s.power with
    | none => rfl
    | some p =>
        have hmark : p.mark ∈ s.unsigned := by simp [unsigned, hpower]
        rcases (hs.power p hpower).mark with heq | heq <;> rw [heq] at hmark
        · exact absurd (hmem 'e' hmark (by decide) (by decide)) (by decide)
        · exact absurd (hmem 'E' hmark (by decide) (by decide)) (by decide)
  refine ⟨by rw [decimals, hfraction]; rfl, hpower, ?_⟩
  rw [unsigned, body, hfraction, hpower, Option.elim_none, Option.elim_none, List.append_nil,
    List.append_nil]

/-- An integer that is read has no exponent to run out of range. -/
theorem WellFormed.inRange_of_integer (hs : s.WellFormed) (hdecimals : s.decimals = [])
    (hpower : s.power = none) : s.InRange := by
  intro hmantissa
  have hpoint := hs.point hmantissa
  have hexponent : s.exponent = 0 := by rw [exponent, hpower, Option.elim_none]
  have hzeros : (s.digits.takeWhile (· == '0')).length ≤ s.whole.length := by
    rw [digits, hdecimals, List.append_nil]
    exact (List.takeWhile_prefix _).length_le
  rw [Fits, hexponent] at hpoint
  rw [Fits, place, hexponent]
  omega

theorem eq_of_within {j : ℤ} (h : r.within i = some j) : i = j := by
  rw [Text.IntRange.within] at h
  split at h <;> cases h
  rfl

/-- A text that is read as an integer is written as the integer. -/
theorem value_of_read (hs : s.Legible) (h : r.read s.text = some i) : s.value = i := by
  obtain ⟨hdecimals, hpower, hunsigned⟩ := unsigned_of_read hs h
  have hvalue : s.value = Sign.factor s.sign * Text.digitsValue s.whole := by
    simp [value, mantissa, exponent, digits, hdecimals, hpower]
  have hbare := hs.bare_unsigned
  rw [text, hunsigned] at h
  rw [hunsigned] at hbare
  rw [hvalue]
  have hread : ∀ {f : ℕ → ℤ}, ((Text.readDigits s.whole).bind fun n => r.within (f n)) = some i →
      f (Text.digitsValue s.whole) = i := by
    intro f h
    obtain ⟨n, hn, h⟩ := Option.bind_eq_some_iff.mp h
    obtain ⟨-, rfl⟩ := readDigits_eq_some_iff.mp hn
    exact eq_of_within h
  cases hsign : s.sign with
  | none =>
      rw [hsign, Sign.text, List.nil_append, Text.IntRange.read_of_bare hbare] at h
      rw [← hread h]
      simp [Sign.factor]
  | some sign =>
      rw [hsign, Text.IntRange.read, String.toList_ofList] at h
      cases sign with
      | plus =>
          rw [← hread h]
          simp [Sign.factor]
      | minus =>
          change (if 0 ≤ r.low then _ else _) = _ at h
          split at h
          next => cases h
          next =>
              rw [← hread h]
              simp [Sign.factor]

/-- The usual spelling of an integer. -/
def ofInt : ℤ → Spelling
  | .ofNat n => ⟨none, Nat.toDigits 10 n, none, none⟩
  | .negSucc n => ⟨some .minus, Nat.toDigits 10 (n + 1), none, none⟩

theorem text_ofInt (i : ℤ) : (ofInt i).text = toString i := by
  cases i with
  | ofNat n =>
      rw [Text.toString_ofNat]
      simp [ofInt, text, unsigned, body, Sign.text]
  | negSucc n =>
      rw [← String.toList_inj, Text.toList_toString_negSucc, text, String.toList_ofList]
      simp [ofInt, unsigned, body, Sign.text]

theorem value_ofInt (i : ℤ) : (ofInt i).value = i := by
  cases i <;>
    simp [ofInt, value, mantissa, exponent, digits, decimals, Text.digitsValue_toDigits,
      Sign.factor, Int.negSucc_eq]

theorem power_ofInt (i : ℤ) : (ofInt i).power = none := by cases i <;> rfl

theorem wellFormed_ofInt {i : ℤ} (hi : i.natAbs < 10 ^ 20) : (ofInt i).WellFormed := by
  have hdigits : (ofInt i).digits = Nat.toDigits 10 i.natAbs := by
    cases i <;> exact List.append_nil _
  have hlength : (ofInt i).whole.length ≤ 20 := by
    have hwhole : (ofInt i).whole = Nat.toDigits 10 i.natAbs := by cases i <;> rfl
    rw [hwhole]
    exact (Nat.length_toDigits_le_iff (by decide) (by decide)).mpr hi
  refine ⟨?_, ?_, ?_, fun _ => ?_⟩
  · rw [hdigits]
    exact Text.isDigit_toDigits _
  · rw [hdigits]
    exact Nat.toDigits_ne_nil
  · rw [power_ofInt]
    nofun
  · rw [exponent, power_ofInt, Option.elim_none]
    constructor <;> omega

end Decimal.Spelling

theorem Decimal.denotes_toString {i : ℤ} (hlow : -2 ^ 63 ≤ i) (hhigh : i < 2 ^ 64) :
    Denotes (toString i) i := by
  have hi : i.natAbs < 10 ^ 20 := by
    norm_num at hlow hhigh ⊢
    omega
  have hs := Spelling.wellFormed_ofInt hi
  have hrange := hs.inRange_of_integer (by cases i <;> rfl) (Spelling.power_ofInt i)
  have hdenotes := hs.denotes hrange
  rwa [Spelling.text_ofInt, Spelling.value_ofInt] at hdenotes

/-- What is read of a number other than zero is not zero, also if its exponent wraps around. -/
theorem Decimal.Spelling.WellFormed.compareTexts_ne_eq {s : Spelling} {t : String}
    (hs : s.WellFormed) (hmantissa : s.mantissa ≠ 0) (ht : Denotes t 0) :
    compareTexts t s.text ≠ some .eq := by
  obtain ⟨r, hr, hrange, rfl, hzero⟩ := ht
  have hread := hs.ofText_text
  have hnormal := normal_of_ofText hread
  rw [compareTexts_of_ofText (hr.ofText_of_inRange hrange) hread, hr.legible.value_decimal, hzero,
    Ne, Option.some.injEq, compare_eq_iff_eq, ← value_zero, value_inj normal_zero hnormal]
  intro heq
  exact hs.legible.digits_decimal_ne_nil hmantissa (congrArg Decimal.digits heq).symm

/-! ## Stored numbers -/

namespace Json.Number

open Decimal (Denotes)

variable {t : String} {x : Number}

/-- The text is that of an integer of a signed or an unsigned word of 64 bits. -/
def IsWord (t : String) : Prop :=
  ((Text.IntRange.signed 64).read t).isSome = true ∨
    ((Text.IntRange.unsigned 64).read t).isSome = true

/-- What a text is read as. -/
theorem ofStored_cases (h : ofStored t = .ok x) :
    (IsWord t ∧ ∃ (r : Text.IntRange) (i : ℤ), r.read t = some i ∧ x = .integer i) ∨
      (¬ IsWord t ∧ ∃ y, Binary64.ofText t = some y ∧ x = .double y) := by
  rw [ofStored] at h
  split at h
  next i hsigned =>
      cases h
      exact Or.inl ⟨Or.inl (by rw [hsigned]; rfl), _, i, hsigned, rfl⟩
  next hsigned =>
      split at h
      next i hunsigned =>
          cases h
          exact Or.inl ⟨Or.inr (by rw [hunsigned]; rfl), _, i, hunsigned, rfl⟩
      next hunsigned =>
          split at h
          next y hy =>
              split at h
              next hfinite =>
                  cases h
                  exact Or.inr ⟨by simp [IsWord, hsigned, hunsigned], y, hy, rfl⟩
              next => cases h
          next => cases h

/-- The text is that of a number that some finite double is written as. -/
def OfDouble (t : String) : Prop :=
  ∃ y : Binary64, y.isFinite = true ∧ y.Canonical ∧ Denotes t (y.written Binary64.exchange)

/-- A text of such a number is read as a double that is written as the number. -/
theorem OfDouble.exists_ofText (h : OfDouble t) :
    ∃ y, Binary64.ofText t = some y ∧ y.isFinite = true ∧
      Denotes t (y.written Binary64.exchange) := by
  obtain ⟨x, hfinite, hcanonical, ht⟩ := h
  obtain ⟨y, hy, hyfinite, hwritten⟩ := Binary64.exists_ofText_of_denotes hfinite hcanonical ht
  exact ⟨y, hy, hyfinite, hwritten ▸ ht⟩

theorem OfDouble.readable (h : OfDouble t) : Readable t := by
  obtain ⟨y, hy, hfinite, -⟩ := h.exists_ofText
  exact Or.inr (Or.inr ⟨y, hy, hfinite⟩)

/-- A number that a double is written as has its exponent in range. -/
theorem inRange_of_compareTexts {s : Decimal.Spelling} {y : Binary64} (hs : s.WellFormed)
    (hread : Binary64.ofText s.text = some y)
    (h : Decimal.compareTexts (y.text Binary64.exchange) s.text = some .eq) : s.InRange := by
  intro hmantissa
  have hpoint := hs.point hmantissa
  -- Nothing but the zeros in front takes the exponent out of range, and then it is too small.
  by_contra hplace
  have hsmall : s.place < -400 := by
    rw [Decimal.Fits] at hpoint hplace
    rw [Decimal.Spelling.place] at hplace ⊢
    omega
  rw [Binary64.ofText_of_place_lt hs.legible hmantissa hsmall] at hread
  cases hread
  have hzero := Binary64.denotes_text Binary64.exchange rfl
    (Binary64.canonical_zero (decide (s.sign = some .minus)))
  rw [Binary64.zero, Binary64.written_zero] at hzero
  exact hs.compareTexts_ne_eq hmantissa hzero h

/-- What was read is written as the number again exactly if the text is that of an integer of 64
bits or of a number that some double is written as. -/
theorem compareTexts_text_iff (ht : Decimal.isNumber t = true) (h : ofStored t = .ok x) :
    Decimal.compareTexts x.text t = some .eq ↔ IsWord t ∨ OfDouble t := by
  obtain ⟨s, hs, rfl⟩ := Decimal.isSome_ofText_iff.mp ht
  have hstorable := storable_of_ofStored h
  rcases ofStored_cases h with ⟨hword, r, i, hread, rfl⟩ | ⟨hword, y, hread, rfl⟩
  · obtain ⟨hdecimals, hpower, -⟩ := Decimal.Spelling.unsigned_of_read hs.legible hread
    have hdenotes := hs.denotes (hs.inRange_of_integer hdecimals hpower)
    have hvalue := Decimal.Spelling.value_of_read hs.legible hread
    refine iff_of_true ?_ (Or.inl hword)
    exact (Decimal.compareTexts_eq_iff
      (Decimal.denotes_toString hstorable.1 hstorable.2) hdenotes).mpr hvalue.symm
  · have hwritten := Binary64.denotes_text Binary64.exchange hstorable.1 hstorable.2
    rw [or_iff_right hword]
    constructor
    · intro heq
      have hdenotes := hs.denotes (inRange_of_compareTexts hs hread heq)
      refine ⟨y, hstorable.1, hstorable.2, ?_⟩
      rwa [(Decimal.compareTexts_eq_iff hwritten hdenotes).mp heq]
    · intro hdouble
      obtain ⟨z, hz, -, hdenotes⟩ := hdouble.exists_ofText
      rw [hread] at hz
      cases hz
      exact (Decimal.compareTexts_eq_iff hwritten hdenotes).mpr rfl

/-- A number of at most fifteen digits in the normal range is one that some double is written
as. -/
theorem ofDouble_of_length {s : Decimal.Spelling} (hs : s.WellFormed)
    (hlength : (Decimal.significant s.digits).length ≤ 15)
    (hnormal : s.value = 0 ∨ 10 ^ (-307 : ℤ) ≤ |s.value| ∧ |s.value| < 10 ^ (308 : ℤ)) :
    OfDouble s.text := by
  have hrange : s.InRange := by
    rcases hnormal with hzero | ⟨hlow, hhigh⟩
    · exact absurd (Decimal.Spelling.mantissa_of_value_eq_zero hzero)
    · rw [← hs.legible.value_decimal, Decimal.abs_value, hs.legible.magnitude_decimal]
        at hlow hhigh
      exact hs.legible.inRange_of_bounds (by decide) (by decide) hlow hhigh
  rw [← s.digits_decimal] at hlength
  rw [← hs.legible.value_decimal] at hnormal
  obtain ⟨y, hfinite, hcanonical, hwritten⟩ :=
    Binary64.exists_written Binary64.exchange hs.legible.normal_decimal hlength hnormal
  rw [hs.legible.value_decimal] at hwritten
  exact ⟨y, hfinite, hcanonical, hwritten ▸ hs.denotes hrange⟩

end Json.Number

namespace Value

variable {n : String}

/-- What becomes of a stored number that is read and written again.  Reading it fails only by
saying that the number cannot be represented.  Otherwise the number stays the same exactly if it is
written as an integer of 64 bits or is what some finite double is written as, and a number of at
most fifteen digits in the normal range always stays the same. -/
theorem number_kept_iff (hn : Decimal.isNumber n = true) :
    (∀ e, (number n).toPlain = .error e → e = .invalidNumber n) ∧
    (∀ j, (number n).toPlain = .ok j → ∃ t, ofPlain j = number t ∧
      (Decimal.compareTexts t n = some .eq ↔ Json.Number.IsWord n ∨ Json.Number.OfDouble n)) ∧
    (∀ s : Decimal.Spelling, s.WellFormed → s.text = n →
      (Decimal.significant s.digits).length ≤ 15 →
      s.value = 0 ∨ 10 ^ (-307 : ℤ) ≤ |s.value| ∧ |s.value| < 10 ^ (308 : ℤ) →
      ∃ j t, (number n).toPlain = .ok j ∧ ofPlain j = number t ∧
        Decimal.compareTexts t n = some .eq) := by
  have hkept : ∀ j, (number n).toPlain = .ok j → ∃ t, ofPlain j = number t ∧
      (Decimal.compareTexts t n = some .eq ↔ Json.Number.IsWord n ∨ Json.Number.OfDouble n) := by
    intro j hj
    obtain ⟨x, hx, rfl⟩ := map_eq_ok_iff.mp hj
    exact ⟨x.text, rfl, Json.Number.compareTexts_text_iff hn hx⟩
  refine ⟨fun e he => (toPlain_number_eq_error_iff.mp he).2, hkept, ?_⟩
  rintro s hs rfl hlength hnormal
  have hdouble := Json.Number.ofDouble_of_length hs hlength hnormal
  cases hj : (number s.text).toPlain with
  | error e => exact absurd hdouble.readable (toPlain_number_eq_error_iff.mp hj).1
  | ok j =>
      obtain ⟨t, ht, hiff⟩ := hkept j hj
      exact ⟨j, t, rfl, ht, hiff.mpr (Or.inr hdouble)⟩

/-- A tenth, spelled with a power of ten and with zeros at both ends. -/
theorem number_kept_iff_tenth :
    Decimal.isNumber "010.00e-2" = true ∧
      ∃ j t, (number "010.00e-2").toPlain = .ok j ∧ ofPlain j = number t ∧
        Decimal.compareTexts t "010.00e-2" = some .eq := by
  let s : Decimal.Spelling :=
    ⟨none, ['0', '1', '0'], some ['0', '0'], some ⟨'e', some .minus, ['2']⟩⟩
  have hs : s.WellFormed := by
    refine ⟨List.all_eq_true.mp rfl, by decide, ?_, fun _ => by decide⟩
    rintro _ ⟨⟩
    exact ⟨Or.inl rfl, by decide, List.all_eq_true.mp rfl, by decide⟩
  have hvalue : |s.value| = 10 ^ (-1 : ℤ) := by
    rw [Decimal.Spelling.value, Decimal.Spelling.mantissa]
    show |((1 : ℤ) : ℚ) * (((1000 : ℕ) : ℚ) / 10 ^ 2) * 10 ^ (-2 : ℤ)| = 10 ^ (-1 : ℤ)
    norm_num
  have hten : (1 : ℚ) < 10 := by norm_num
  have hn : Decimal.isNumber "010.00e-2" = true := by decide +kernel
  obtain ⟨-, -, hkept⟩ := number_kept_iff hn
  refine ⟨hn, hkept s hs rfl (by decide) (Or.inr ?_)⟩
  rw [hvalue]
  exact ⟨zpow_le_zpow_right₀ hten.le (by decide), zpow_lt_zpow_right₀ hten (by decide)⟩

/-- An integer of 65 bits is read as the nearest double, which is its neighbour. -/
theorem number_not_kept :
    ¬ ∀ n : String, Decimal.isNumber n = true →
      (number n).toPlain = .error (.invalidNumber n) ∨
      ∃ j t, (number n).toPlain = .ok j ∧ ofPlain j = number t ∧
        Decimal.compareTexts t n = some .eq := by
  intro h
  let x := Binary64.finite false 4503599627370496 12
  have hplain : (number "18446744073709551617").toPlain = .ok (.number (.double x)) := by
    have hread : Json.Number.ofStored "18446744073709551617" = .ok (.double x) := by decide +kernel
    rw [toPlain, hread]
    rfl
  have hgreater : Decimal.compareTexts (x.text Binary64.exchange) "18446744073709551617" =
      some .gt := by decide +kernel
  rcases h "18446744073709551617" (by decide +kernel) with herror | ⟨j, t, hj, ht, heq⟩
  · rw [hplain] at herror
    cases herror
  · rw [hplain] at hj
    cases hj
    cases ht
    exact absurd (hgreater.symm.trans heq) (by decide)

end Value

end ItemStore
