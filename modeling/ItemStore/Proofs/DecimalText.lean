import ItemStore.Proofs.DecimalSpelling

/-!
# The texts of numbers

The texts that are read as numbers are exactly the texts of well-formed spellings
(`isSome_ofText_iff`).  What is read is the one form of the number that is written, with its
exponent held in a word (`Spelling.WellFormed.ofText_text`), and so it is the number itself where
the exponent is in range.  As decimals are ordered as their values, texts of such numbers are
compared exactly, at any length (`compareTexts_exact`).
-/

namespace ItemStore.Decimal

/-! ## Reading a power of ten -/

theorem holds_exponentRange (i : ℤ) : exponentRange.holds i = true ↔ Fits i := by
  simp only [exponentRange, Text.IntRange.signed, Text.IntRange.holds, Fits, Bool.and_eq_true]
  norm_num
  omega

theorem within_eq_some_iff {i v : ℤ} :
    exponentRange.within i = some v ↔ Fits i ∧ i = v := by
  rw [Text.IntRange.within]
  split
  next h => simp [(holds_exponentRange i).mp h]
  next h => simp [mt (holds_exponentRange i).mpr h]

theorem readDigits_eq_some_iff {ds : List Char} {n : ℕ} :
    Text.readDigits ds = some n ↔
      (ds ≠ [] ∧ ∀ c ∈ ds, c.isDigit = true) ∧ Text.digitsValue ds = n := by
  rw [Text.readDigits]
  split
  next h => simp_all
  next h =>
      simp only [Bool.and_eq_true, Bool.not_eq_true', List.isEmpty_eq_false_iff,
        List.all_eq_true] at h
      simp [h]

/-! ## Exponents in a word -/

/-- A word holds the integers in its range. -/
theorem wrapExponent_eq_self {i : ℤ} (h : Fits i) : wrapExponent i = i :=
  Int.bmod_eq_of_le (by norm_num; exact h.1) (by norm_num; exact h.2)

/-- The number with its exponent held in a word. -/
def wrapped (d : Decimal) : Decimal := { d with exponent := wrapExponent d.exponent }

theorem wrapped_zero : zero.wrapped = zero := rfl

theorem wrapped_eq_self {d : Decimal} (h : Fits d.exponent) : d.wrapped = d := by
  rw [wrapped, wrapExponent_eq_self h]

/-! ## Signs -/

/-- The text does not begin with a sign. -/
def Bare (cs : List Char) : Prop := ∀ c ∈ cs.head?, c ≠ '+' ∧ c ≠ '-'

theorem bare_of_isDigit {cs : List Char} (h : ∀ c ∈ cs, c.isDigit = true) : Bare cs := by
  intro c hc
  have hdigit := h c (List.mem_of_mem_head? hc)
  constructor <;> rintro rfl <;> exact absurd hdigit (by decide)

/-- Every text is a sign, which may be left out, and a rest. -/
theorem Sign.exists_split (cs : List Char) :
    ∃ sign rest, (sign = none → Bare rest) ∧ Sign.text sign ++ rest = cs := by
  cases cs with
  | nil => exact ⟨none, [], fun _ => nofun, rfl⟩
  | cons c cs =>
      by_cases hplus : c = '+'
      · exact ⟨some .plus, cs, nofun, by rw [hplus]; rfl⟩
      by_cases hminus : c = '-'
      · exact ⟨some .minus, cs, nofun, by rw [hminus]; rfl⟩
      refine ⟨none, c :: cs, fun _ => ?_, rfl⟩
      rintro _ ⟨⟩
      exact ⟨hplus, hminus⟩

/-- The exponent after its sign. -/
theorem read_signed {sign : Option Sign} {rest : List Char} (h : sign = none → Bare rest) :
    exponentRange.read (String.ofList (Sign.text sign ++ rest)) =
      (Text.readDigits rest).bind fun n => exponentRange.within (Sign.factor sign * n) := by
  have hlow : ¬ (0 : ℤ) ≤ exponentRange.low := by decide
  rw [Text.IntRange.read, String.toList_ofList]
  match sign with
  | some .plus => simp [Sign.text, Sign.factor]
  | some .minus => simp [Sign.text, Sign.factor, hlow]
  | none =>
      simp only [Sign.text, Sign.factor, List.nil_append, one_mul]
      split
      next => exact absurd rfl (h rfl '+' rfl).1
      next => exact absurd rfl (h rfl '-' rfl).2
      next => rfl

/-- The number after its sign. -/
theorem ofText_signed {sign : Option Sign} {rest : List Char} (h : sign = none → Bare rest) :
    ofText (String.ofList (Sign.text sign ++ rest)) =
      readUnsigned (decide (sign = some .minus)) rest := by
  rw [ofText, String.toList_ofList]
  match sign with
  | some .plus => simp [Sign.text]
  | some .minus => simp [Sign.text]
  | none =>
      simp only [Sign.text, List.nil_append]
      split
      next => exact absurd rfl (h rfl '-' rfl).2
      next => exact absurd rfl (h rfl '+' rfl).1
      next => simp

/-- What is read as an exponent is the numeral of a power. -/
theorem Power.read_eq_some_iff {e : List Char} {v : ℤ} (mark : Char)
    (hmark : mark = 'e' ∨ mark = 'E') :
    exponentRange.read (String.ofList e) = some v ↔
      ∃ p : Power, p.WellFormed ∧ p.mark = mark ∧ p.numeral = e ∧ p.value = v := by
  constructor
  · intro h
    obtain ⟨sign, ds, hbare, rfl⟩ := Sign.exists_split e
    rw [read_signed hbare] at h
    obtain ⟨n, hn, hv⟩ := Option.bind_eq_some_iff.mp h
    obtain ⟨⟨hne, hdigits⟩, rfl⟩ := readDigits_eq_some_iff.mp hn
    obtain ⟨hfits, rfl⟩ := within_eq_some_iff.mp hv
    exact ⟨⟨mark, sign, ds⟩, ⟨hmark, hne, hdigits, hfits⟩, rfl, rfl, rfl⟩
  · rintro ⟨p, hp, -, rfl, rfl⟩
    rw [numeral, read_signed fun _ => bare_of_isDigit hp.isDigit,
      readDigits_eq_some_iff.mpr ⟨⟨hp.nonempty, hp.isDigit⟩, rfl⟩]
    exact within_eq_some_iff.mpr ⟨hp.fits, rfl⟩

/-! ## Reading a number -/

/-- The number that the parts of a numeral make up, with the exponent read. -/
def ofParts (negative : Bool) (n : Numeral) (e : ℤ) : Option Decimal :=
  if n.digitsOnly then
    if (significant n.digits).isEmpty then some zero
    else (exponentRange.within (n.whole.length + e)).map fun point =>
      ⟨negative, significant n.digits,
        wrapExponent (point - (n.digits.takeWhile (· == '0')).length)⟩
  else none

theorem digitsOnly_iff (n : Numeral) :
    n.digitsOnly = true ↔ n.digits ≠ [] ∧ ∀ c ∈ n.digits, c.isDigit = true := by
  simp [Numeral.digitsOnly]

theorem ofParts_eq_some_iff {negative : Bool} {n : Numeral} {e : ℤ} {d : Decimal} :
    ofParts negative n e = some d ↔
      (n.digits ≠ [] ∧ ∀ c ∈ n.digits, c.isDigit = true) ∧
      (significant n.digits = [] ∧ d = zero ∨
        significant n.digits ≠ [] ∧ Fits (n.whole.length + e) ∧
        d = ⟨negative, significant n.digits,
          wrapExponent (n.whole.length + e - (n.digits.takeWhile (· == '0')).length)⟩) := by
  rw [ofParts, ← digitsOnly_iff]
  split
  next hdigits =>
      split
      next hzero => simp [hdigits, List.isEmpty_iff.mp hzero, @eq_comm _ d]
      next hzero =>
          rw [List.isEmpty_iff] at hzero
          constructor
          · intro h
            obtain ⟨point, hpoint, rfl⟩ := Option.map_eq_some_iff.mp h
            obtain ⟨hfits, rfl⟩ := within_eq_some_iff.mp hpoint
            exact ⟨hdigits, Or.inr ⟨hzero, hfits, rfl⟩⟩
          · rintro ⟨-, ⟨hnil, -⟩ | ⟨-, hfits, rfl⟩⟩
            · exact absurd hnil hzero
            · exact Option.map_eq_some_iff.mpr ⟨_, within_eq_some_iff.mpr ⟨hfits, rfl⟩, rfl⟩
  next hdigits => simp [hdigits]

/-- Without a power of ten, the exponent is zero. -/
theorem readUnsigned_of_none {negative : Bool} {cs : List Char}
    (h : (Numeral.split cs).exponent = none) :
    readUnsigned negative cs = ofParts negative (Numeral.split cs) 0 := by
  rw [readUnsigned]
  simp only [h]
  rfl

theorem readUnsigned_of_some {negative : Bool} {cs t : List Char}
    (h : (Numeral.split cs).exponent = some t) :
    readUnsigned negative cs = (exponentRange.read (String.ofList t)).bind
      (ofParts negative (Numeral.split cs)) := by
  rw [readUnsigned]
  simp only [h]
  rfl

theorem value_eq_mul (d : Decimal) :
    d.value = (if d.negative then -1 else 1) * d.magnitude := by
  rw [value]
  split <;> simp

namespace Spelling

variable {s : Spelling}

theorem mantissa_eq_zero_iff : s.mantissa = 0 ↔ Text.digitsValue s.digits = 0 := by
  simp [mantissa]

/-- The digits as a fraction, with the point before the first of them. -/
theorem mantissa_eq : s.mantissa = Decimal.fraction s.digits * 10 ^ s.whole.length := by
  rw [mantissa, fraction_eq, digits, List.length_append, pow_add]
  field_simp

theorem significant_eq_nil_iff (hs : s.Legible) : significant s.digits = [] ↔ s.mantissa = 0 :=
  (Decimal.significant_eq_nil_iff hs.isDigit).trans mantissa_eq_zero_iff.symm

/-- The parts of a well-formed spelling make up the number that is written. -/
theorem WellFormed.ofParts_eq (hs : s.WellFormed) (t : Option (List Char)) :
    ofParts (decide (s.sign = some .minus)) ⟨s.whole, s.decimals, t⟩ s.exponent =
      some s.decimal.wrapped := by
  have hdigits : s.digits ≠ [] ∧ ∀ c ∈ s.digits, c.isDigit = true := ⟨hs.nonempty, hs.isDigit⟩
  rw [decimal]
  split
  next hzero => exact ofParts_eq_some_iff.mpr ⟨hdigits, Or.inl ⟨hzero, wrapped_zero⟩⟩
  next hzero =>
      have hpoint := hs.point (mt (significant_eq_nil_iff hs.legible).mpr hzero)
      exact ofParts_eq_some_iff.mpr ⟨hdigits, Or.inr ⟨hzero, hpoint, rfl⟩⟩

/-- What is read without the sign. -/
theorem WellFormed.readUnsigned_unsigned (hs : s.WellFormed) :
    readUnsigned (decide (s.sign = some .minus)) s.unsigned = some s.decimal.wrapped := by
  have hsplit := hs.legible.split_unsigned
  cases hpower : s.power with
  | none =>
      rw [readUnsigned_of_none (by rw [hsplit, hpower]; rfl), hsplit]
      have hexponent : s.exponent = 0 := by rw [exponent, hpower]; rfl
      exact hexponent ▸ hs.ofParts_eq _
  | some p =>
      have hp := hs.power p hpower
      have hexponent : s.exponent = p.value := by rw [exponent, hpower]; rfl
      have hread : exponentRange.read (String.ofList p.numeral) = some s.exponent :=
        (Power.read_eq_some_iff p.mark hp.mark).mpr ⟨p, hp, rfl, rfl, hexponent.symm⟩
      rw [readUnsigned_of_some (by rw [hsplit, hpower]; rfl), hread, hsplit]
      exact hs.ofParts_eq _

theorem Legible.bare_unsigned (hs : s.Legible) : Bare s.unsigned := by
  have hbody : s.body ≠ [] := by
    intro hnil
    obtain ⟨hwhole, hdecimals⟩ := split_body hs.isDigit
    rw [hnil] at hwhole hdecimals
    exact hs.nonempty (by rw [digits, ← hwhole, ← hdecimals]; rfl)
  intro c hc
  rw [unsigned, List.head?_append_of_ne_nil _ hbody] at hc
  rcases isDigit_or_point_of_mem_body hs.isDigit c (List.mem_of_mem_head? hc) with hdigit | rfl
  · constructor <;> rintro rfl <;> exact absurd hdigit (by decide)
  · decide

/-- The text of a well-formed spelling is read as the number that it denotes, with the exponent
held in a word. -/
theorem WellFormed.ofText_text (hs : s.WellFormed) : ofText s.text = some s.decimal.wrapped := by
  rw [text, ofText_signed fun _ => hs.legible.bare_unsigned, hs.readUnsigned_unsigned]

theorem Legible.normal_decimal (hs : s.Legible) : s.decimal.Normal := by
  rw [decimal]
  split
  next => exact normal_zero
  next hne =>
      exact ⟨fun c hc => hs.isDigit c (mem_of_mem_significant hc), head?_significant _,
        getLast?_significant _, fun hnil => absurd hnil hne⟩

/-- The digits as an integer, scaled. -/
theorem magnitude_eq (s : Spelling) :
    s.magnitude = Text.digitsValue s.digits * 10 ^ (s.exponent - s.decimals.length) := by
  rw [magnitude, mantissa, zpow_sub₀ (by norm_num), zpow_natCast]
  field_simp

theorem value_eq (s : Spelling) : s.value = Sign.factor s.sign * s.magnitude := by
  rw [value, magnitude, mul_assoc]

theorem Legible.magnitude_decimal (hs : s.Legible) : s.decimal.magnitude = s.magnitude := by
  rw [decimal, magnitude]
  split
  next hzero =>
      rw [(significant_eq_nil_iff hs).mp hzero, zero_mul]
      exact zero_mul _
  next =>
      have hten : (10 : ℚ) ≠ 0 := by norm_num
      rw [Decimal.magnitude, fraction_significant, mantissa_eq, place, zpow_sub₀ hten,
        zpow_add₀ hten, zpow_natCast, zpow_natCast]
      field_simp

/-- The one form of a number stands for it. -/
theorem Legible.value_decimal (hs : s.Legible) : s.decimal.value = s.value := by
  rw [value_eq_mul, hs.magnitude_decimal, value_eq, decimal]
  split
  next hzero =>
      have hmagnitude : s.magnitude = 0 := by
        rw [magnitude, (significant_eq_nil_iff hs).mp hzero, zero_mul]
      rw [hmagnitude, mul_zero, mul_zero]
  next =>
      match s.sign with
      | none | some .plus | some .minus => simp [Sign.factor]

theorem digits_decimal (s : Spelling) : s.decimal.digits = significant s.digits := by
  rw [decimal]
  split
  next hzero => exact hzero.symm
  next => rfl

theorem Legible.digits_decimal_ne_nil (hs : s.Legible) (h : s.mantissa ≠ 0) :
    s.decimal.digits ≠ [] := by
  rw [digits_decimal]
  exact mt (significant_eq_nil_iff hs).mp h

theorem Legible.exponent_decimal (hs : s.Legible) (h : s.mantissa ≠ 0) :
    s.decimal.exponent = s.place := by
  rw [decimal, if_neg (mt (significant_eq_nil_iff hs).mp h)]

theorem InRange.wrapped_decimal (h : s.InRange) (hs : s.Legible) :
    s.decimal.wrapped = s.decimal := by
  refine wrapped_eq_self ?_
  rw [decimal]
  split
  next => decide
  next hne => exact h (mt (significant_eq_nil_iff hs).mpr hne)

/-- A number in range is read as itself. -/
theorem WellFormed.ofText_of_inRange (hs : s.WellFormed) (h : s.InRange) :
    ofText s.text = some s.decimal := by
  rw [hs.ofText_text, h.wrapped_decimal hs.legible]

end Spelling

/-! ## The texts that are read -/

/-- What is left out before a character does not satisfy the condition at that character. -/
theorem eq_false_of_dropWhile {f : Char → Bool} {cs rest : List Char} {c : Char}
    (h : cs.dropWhile f = c :: rest) : f c = false := by
  have hnot := List.head?_dropWhile_not f cs
  rw [h] at hnot
  simpa using hnot

/-- Where a number is read, the text after the digits is a power of ten, or nothing. -/
theorem exists_power_of_readUnsigned {negative : Bool} {cs : List Char} {d : Decimal}
    (h : readUnsigned negative cs = some d) : ∃ p : Option Power, (∀ q ∈ p, q.WellFormed) ∧
      (p.elim [] fun q => q.mark :: q.numeral) =
        cs.dropWhile (fun c => !Numeral.isExponentMark c) ∧
      ofParts negative (Numeral.split cs) (p.elim 0 Power.value) = some d := by
  cases hrest : cs.dropWhile fun c => !Numeral.isExponentMark c with
  | nil =>
      rw [readUnsigned_of_none (by simp [Numeral.split, hrest])] at h
      exact ⟨none, by simp, rfl, h⟩
  | cons mark t =>
      have ht : (Numeral.split cs).exponent = some t := by simp [Numeral.split, hrest]
      rw [readUnsigned_of_some ht] at h
      obtain ⟨e, he, hd⟩ := Option.bind_eq_some_iff.mp h
      have hmark : mark = 'e' ∨ mark = 'E' :=
        (isExponentMark_eq_true_iff mark).mp (by simpa using eq_false_of_dropWhile hrest)
      obtain ⟨q, hq, rfl, rfl, rfl⟩ := (Power.read_eq_some_iff mark hmark).mp he
      exact ⟨some q, by rintro _ ⟨⟩; exact hq, rfl, hd⟩

/-- Digits are cut at the first point, if there is one. -/
theorem exists_fraction (cs : List Char) : ∃ f : Option (List Char),
    f.elim [] ('.' :: ·) = cs.dropWhile (· != '.') ∧
      f.getD [] = (cs.dropWhile (· != '.')).drop 1 := by
  cases hrest : cs.dropWhile (· != '.') with
  | nil => exact ⟨none, rfl, rfl⟩
  | cons c rest =>
      have hc : c = '.' := by simpa using eq_false_of_dropWhile hrest
      exact ⟨some rest, by rw [hc]; rfl, rfl⟩

/-- What is read without a sign is written in some way. -/
theorem exists_spelling_of_readUnsigned {negative : Bool} {cs : List Char} {d : Decimal}
    (h : readUnsigned negative cs = some d) (sign : Option Sign) :
    ∃ s : Spelling, s.WellFormed ∧ s.sign = sign ∧ s.unsigned = cs := by
  obtain ⟨power, hpower, hrest, hparts⟩ := exists_power_of_readUnsigned h
  obtain ⟨fraction, hfraction, hdecimals⟩ :=
    exists_fraction (cs.takeWhile fun c => !Numeral.isExponentMark c)
  obtain ⟨⟨hne, hdigits⟩, hplace⟩ := ofParts_eq_some_iff.mp hparts
  let s : Spelling := ⟨sign, (Numeral.split cs).whole, fraction, power⟩
  have hs : s.digits = (Numeral.split cs).digits :=
    congrArg ((Numeral.split cs).whole ++ ·) hdecimals
  have hbody : s.body = cs.takeWhile fun c => !Numeral.isExponentMark c := by
    show (Numeral.split cs).whole ++ fraction.elim [] ('.' :: ·) = _
    rw [hfraction]
    exact List.takeWhile_append_dropWhile
  refine ⟨s, ⟨hs ▸ hdigits, hs ▸ hne, hpower, ?_⟩, rfl, ?_⟩
  · intro hmantissa
    rcases hplace with ⟨hzero, -⟩ | ⟨-, hfits, -⟩
    · rw [← hs, significant_eq_nil_iff (hs ▸ hdigits)] at hzero
      exact absurd (Spelling.mantissa_eq_zero_iff.mpr hzero) hmantissa
    · exact hfits
  · rw [Spelling.unsigned, hbody]
    show _ ++ (power.elim [] fun q => q.mark :: q.numeral) = cs
    rw [hrest]
    exact List.takeWhile_append_dropWhile

/-- The texts that are read as numbers are the texts of well-formed spellings. -/
theorem isSome_ofText_iff {text : String} :
    (ofText text).isSome = true ↔ ∃ s : Spelling, s.WellFormed ∧ s.text = text := by
  constructor
  · intro h
    obtain ⟨d, hd⟩ := Option.isSome_iff_exists.mp h
    obtain ⟨sign, rest, hbare, hsplit⟩ := Sign.exists_split text.toList
    obtain rfl : String.ofList (Sign.text sign ++ rest) = text := by
      rw [hsplit, String.ofList_toList]
    rw [ofText_signed hbare] at hd
    obtain ⟨s, hs, rfl, rfl⟩ := exists_spelling_of_readUnsigned hd sign
    exact ⟨s, hs, rfl⟩
  · rintro ⟨s, hs, rfl⟩
    rw [hs.ofText_text]
    rfl

/-! ## Comparing texts -/

/-- Texts are compared as what they are read as. -/
theorem compareTexts_of_ofText {a b : String} {c d : Decimal} (hc : ofText a = some c)
    (hd : ofText b = some d) : compareTexts a b = some (Ord.compare c.value d.value) := by
  rw [compareTexts, hc, hd]
  exact congrArg some (compare_eq_compare_value (normal_of_ofText hc) (normal_of_ofText hd))

/-- Texts of numbers in range are compared as the numbers that they denote. -/
theorem compareTexts_text {s t : Spelling} (hs : s.WellFormed) (ht : t.WellFormed)
    (hsrange : s.InRange) (htrange : t.InRange) :
    compareTexts s.text t.text = some (Ord.compare s.value t.value) := by
  rw [compareTexts_of_ofText (hs.ofText_of_inRange hsrange) (ht.ofText_of_inRange htrange),
    hs.legible.value_decimal, ht.legible.value_decimal]

theorem compareTexts_swap (a b : String) :
    compareTexts b a = (compareTexts a b).map Ordering.swap := by
  cases ha : ofText a with
  | none => cases hb : ofText b <;> simp [compareTexts, ha, hb]
  | some c =>
      cases hb : ofText b with
      | none => simp [compareTexts, ha, hb]
      | some d =>
          rw [compareTexts_of_ofText hb ha, compareTexts_of_ofText ha hb]
          exact congrArg some Std.OrientedCmp.eq_swap

theorem isSome_compareTexts_iff {a b : String} :
    (compareTexts a b).isSome = true ↔ (ofText a).isSome = true ∧ (ofText b).isSome = true := by
  rw [compareTexts]
  cases ofText a <;> cases ofText b <;> simp

theorem exists_ofText_of_compareTexts {a b : String} {o : Ordering}
    (h : compareTexts a b = some o) : ∃ c d, ofText a = some c ∧ ofText b = some d ∧
      Ord.compare c.value d.value = o := by
  obtain ⟨ha, hb⟩ := isSome_compareTexts_iff.mp (Option.isSome_iff_exists.mpr ⟨o, h⟩)
  obtain ⟨c, hc⟩ := Option.isSome_iff_exists.mp ha
  obtain ⟨d, hd⟩ := Option.isSome_iff_exists.mp hb
  rw [compareTexts_of_ofText hc hd, Option.some.injEq] at h
  exact ⟨c, d, hc, hd, h⟩

/-- Numbers are compared exactly.  Two texts have an order exactly if both are written as numbers:
an optional sign, digits with at most one point and at least one digit, and an optional power of ten
whose exponent fits a word of 64 bits, as does the place of the point in a number other than zero.
Then the order is that of the numbers which the texts denote, if their exponents still fit a word
when the zeros before the first significant digit are taken off.  So these texts compare equal
exactly if they denote one number.  The texts that are numbers are totally preordered, whether their
exponents are in range or not. -/
theorem compareTexts_exact (a b : String) :
    ((compareTexts a b).isSome = true ↔
      (∃ s : Spelling, s.WellFormed ∧ s.text = a) ∧ ∃ t : Spelling, t.WellFormed ∧ t.text = b) ∧
    (∀ s t : Spelling, s.WellFormed → t.WellFormed → s.InRange → t.InRange → s.text = a →
      t.text = b → compareTexts a b = some (Ord.compare s.value t.value) ∧
      (compareTexts a b = some .eq ↔ s.value = t.value)) ∧
    (∀ s : Spelling, s.WellFormed → s.text = a → compareTexts a a = some .eq) ∧
    compareTexts b a = (compareTexts a b).map Ordering.swap ∧
    (∀ c o₁ o₂, compareTexts a b = some o₁ → compareTexts b c = some o₂ → o₁.isLE = true →
      o₂.isLE = true → ∃ o, compareTexts a c = some o ∧ o.isLE = true) := by
  refine ⟨?_, ?_, ?_, compareTexts_swap a b, ?_⟩
  · rw [isSome_compareTexts_iff, isSome_ofText_iff, isSome_ofText_iff]
  · rintro s t hs ht hsrange htrange rfl rfl
    have horder := compareTexts_text hs ht hsrange htrange
    exact ⟨horder, by rw [horder, Option.some.injEq, compare_eq_iff_eq]⟩
  · rintro s hs rfl
    rw [compareTexts_of_ofText hs.ofText_text hs.ofText_text, compare_eq_iff_eq.mpr rfl]
  · intro c o₁ o₂ hab hbc h₁ h₂
    obtain ⟨x, y, hx, hy, rfl⟩ := exists_ofText_of_compareTexts hab
    obtain ⟨y', z, hy', hz, rfl⟩ := exists_ofText_of_compareTexts hbc
    obtain rfl : y = y' := Option.some.inj (hy.symm.trans hy')
    exact ⟨_, compareTexts_of_ofText hx hz, Std.TransCmp.isLE_trans h₁ h₂⟩

/-- A tenth with more digits than a double has, and a tenth written with a power of ten. -/
theorem compareTexts_exact_tenths :
    let s : Spelling := ⟨none, ['0'], some "10000000000000000001".toList, none⟩
    let t : Spelling := ⟨some .plus, ['1'], none, some ⟨'e', some .minus, ['1']⟩⟩
    s.WellFormed ∧ t.WellFormed ∧ s.InRange ∧ t.InRange ∧
    s.text = "0.10000000000000000001" ∧ t.text = "+1e-1" ∧
    compareTexts "0.10000000000000000001" "+1e-1" = some .gt ∧ t.value < s.value := by
  intro s t
  have hs : s.WellFormed := by
    exact ⟨List.all_eq_true.mp rfl, by decide, nofun, fun _ => by decide⟩
  have hsrange : s.InRange := fun _ => by decide
  have ht : t.WellFormed := by
    refine ⟨List.all_eq_true.mp rfl, by decide, ?_, fun _ => by decide⟩
    rintro _ ⟨⟩
    exact ⟨Or.inl rfl, by decide, List.all_eq_true.mp rfl, by decide⟩
  have htrange : t.InRange := fun _ => by decide
  have hgt : compareTexts "0.10000000000000000001" "+1e-1" = some .gt := by decide +kernel
  obtain ⟨-, horder, -⟩ := compareTexts_exact "0.10000000000000000001" "+1e-1"
  have hvalues := (horder s t hs ht hsrange htrange rfl rfl).1.symm.trans hgt
  exact ⟨hs, ht, hsrange, htrange, rfl, rfl, hgt, compare_gt_iff_gt.mp (Option.some.inj hvalues)⟩

/-- The exponent of the first text is one too small for a word, and wraps around. -/
example : compareTexts "0.001e-9223372036854775808" "0.1e9223372036854775806" = some .eq := by
  decide +kernel

end ItemStore.Decimal
