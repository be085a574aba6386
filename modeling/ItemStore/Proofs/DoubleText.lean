import ItemStore.Binary64.Reading
import ItemStore.Proofs.ShortestDigits

/-!
# The text of a double

Each layout writes the digits of a double as a legible spelling of the number that they denote.
Spellings are read as the double nearest to their number, and the digits of a double are rounded
back to it, so that its text is read as the double itself (`ofText_text`).
-/

namespace ItemStore.Binary64

open Decimal (Bare Power Sign Spelling)

/-! ## Reading a spelling -/

theorem readExponent_numeral {p : Power} (hp : p.Legible) :
    readExponent p.numeral = some p.value := by
  have hread : Text.readDigits p.digits = some (Text.digitsValue p.digits) :=
    Decimal.readDigits_eq_some_iff.mpr ⟨⟨hp.nonempty, hp.isDigit⟩, rfl⟩
  have hbare := Decimal.bare_of_isDigit hp.isDigit
  rw [Power.numeral, Power.value]
  cases p.sign with
  | some sign => cases sign <;> simp [Sign.text, Sign.factor, readExponent, hread]
  | none =>
      rw [Sign.text, List.nil_append, readExponent]
      · simp [Sign.factor, hread]
      · intro ds hds
        exact (hbare '+' (by rw [hds]; rfl)).1 rfl
      · intro ds hds
        exact (hbare '-' (by rw [hds]; rfl)).2 rfl

/-- A numeral is read as the double nearest to its digits, scaled. -/
theorem readUnsigned_unsigned {s : Spelling} (hs : s.Legible) (negative : Bool) :
    readUnsigned negative s.unsigned =
      some (ofScientific negative (Text.digitsValue s.digits)
        (s.exponent - s.decimals.length)) := by
  have hdigits : Numeral.digitsOnly ⟨s.whole, s.decimals, s.power.map Power.numeral⟩ = true :=
    (Decimal.digitsOnly_iff _).mpr ⟨hs.nonempty, hs.isDigit⟩
  rw [readUnsigned, hs.split_unsigned]
  simp only [hdigits, Spelling.exponent]
  cases hpower : s.power with
  | none => rfl
  | some p =>
      simp only [Option.map_some, readExponent_numeral (hs.power p hpower)]
      rfl

theorem ofText_signed {cs : List Char} (h : Bare cs) (negative : Bool) :
    ofText (String.ofList (if negative then '-' :: cs else cs)) = readUnsigned negative cs := by
  rw [ofText, String.toList_ofList]
  cases negative with
  | true => rfl
  | false =>
      rw [if_neg Bool.false_ne_true]
      split
      next => exact absurd rfl (h '-' rfl).2
      next => exact absurd rfl (h '+' rfl).1
      next => rfl

/-! ## Layouts -/

namespace Digits

variable {d : Digits} {s : Spelling}

/-- The spelling is one of the number that the digits denote, with an exponent and a point no
further off than the first digit. -/
structure WrittenAs (d : Digits) (s : Spelling) : Prop where
  legible : s.Legible
  value : s.magnitude = d.value
  exponent : |s.exponent| ≤ |d.place|
  point : |s.whole.length + s.exponent| ≤ |d.place| + 1

theorem isDigit_zeros (n : ℕ) : ∀ c ∈ zeros n, c.isDigit = true := by
  intro c hc
  rw [List.eq_of_mem_replicate hc]
  rfl

/-- Zeros in front move the digits down. -/
theorem fraction_zeros_append (n : ℕ) (ds : List Char) :
    Decimal.fraction (zeros n ++ ds) = Decimal.fraction ds / 10 ^ n := by
  induction n with
  | zero => simp [zeros]
  | succ n ih =>
      rw [zeros, List.replicate_succ, List.cons_append, Decimal.fraction, ← zeros, ih, pow_succ]
      simp [Text.digitValue, div_div]

theorem legible_none : ∀ p ∈ (none : Option Power), p.Legible := nofun

/-- Digits are written between any number of zeros, if the point is put in its place. -/
theorem writtenAs (hdigits : ∀ c ∈ d.digits, c.isDigit = true) (hne : d.digits ≠ []) (n k : ℕ)
    (hs : s.digits = zeros n ++ (d.digits ++ zeros k)) (hpower : ∀ p ∈ s.power, p.Legible)
    (hplace : s.whole.length + s.exponent = d.place + 1 + n)
    (hexponent : s.exponent = 0 ∨ s.exponent = d.place) (hn : n = 0 ∨ (n : ℤ) = -d.place) :
    d.WrittenAs s := by
  refine ⟨⟨?_, by simp [hs, hne], hpower⟩, ?_, by grind, by grind⟩
  · rw [hs]
    intro c hc
    rw [List.mem_append, List.mem_append] at hc
    rcases hc with hc | hc | hc
    · exact isDigit_zeros n c hc
    · exact hdigits c hc
    · exact isDigit_zeros k c hc
  · have hten : (10 : ℚ) ≠ 0 := by norm_num
    have hzeros : ∀ c ∈ zeros k, c = '0' := fun _ => List.eq_of_mem_replicate
    rw [Spelling.magnitude, Spelling.mantissa_eq, mul_assoc, ← zpow_natCast, ← zpow_add₀ hten,
      hplace, hs, fraction_zeros_append, Decimal.fraction_append_zeros _ hzeros, zpow_add₀ hten,
      zpow_natCast, Digits.value]
    field_simp

theorem exists_positional (pointZero : Bool) (hdigits : ∀ c ∈ d.digits, c.isDigit = true)
    (hne : d.digits ≠ []) :
    ∃ s, s.unsigned = positionalText pointZero d ∧ d.WrittenAs s := by
  rw [positionalText]
  split
  next hplace =>
      obtain ⟨n, hn⟩ : ∃ n : ℕ, (-d.place).toNat = n + 1 := ⟨(-d.place).toNat - 1, by omega⟩
      rw [hn, Nat.add_sub_cancel]
      refine ⟨⟨none, ['0'], some (zeros n ++ d.digits), none⟩, ?_,
        writtenAs hdigits hne (n + 1) 0 ?_ legible_none ?_ (Or.inl rfl) (Or.inr (by omega))⟩
      · simp [Spelling.unsigned, Spelling.body]
      · simp [Spelling.digits, Spelling.decimals, zeros, List.replicate_succ]
      · simp only [Spelling.exponent, Option.elim_none, List.length_singleton]
        omega
  next hplace =>
      simp only
      split
      next hlength =>
          refine ⟨⟨none, d.digits ++ zeros (d.place.toNat + 1 - d.digits.length),
            if pointZero then some ['0'] else none, none⟩, ?_,
            writtenAs hdigits hne 0
              (d.place.toNat + 1 - d.digits.length + pointZero.toNat) ?_ legible_none ?_
              (Or.inl rfl) (Or.inl rfl)⟩
          · cases pointZero <;> simp [Spelling.unsigned, Spelling.body]
          · cases pointZero <;>
              simp [Spelling.digits, Spelling.decimals, zeros, List.replicate_succ']
          · simp only [Spelling.exponent, Option.elim_none, List.length_append, zeros,
              List.length_replicate]
            omega
      next hlength =>
          refine ⟨⟨none, d.digits.take (d.place.toNat + 1),
            some (d.digits.drop (d.place.toNat + 1)), none⟩, ?_,
            writtenAs hdigits hne 0 0 ?_ legible_none ?_ (Or.inl rfl) (Or.inl rfl)⟩
          · simp [Spelling.unsigned, Spelling.body]
          · simp [Spelling.digits, Spelling.decimals, zeros]
          · simp only [Spelling.exponent, Option.elim_none, List.length_take]
            omega

theorem exists_scientific (hdigits : ∀ c ∈ d.digits, c.isDigit = true) (hne : d.digits ≠ []) :
    ∃ s, s.unsigned = scientificText d ∧ d.WrittenAs s := by
  obtain ⟨c, cs, hcons⟩ := List.exists_cons_of_ne_nil hne
  let power : Power :=
    ⟨'e', some (if d.place < 0 then .minus else .plus), Nat.toDigits 10 d.place.natAbs⟩
  have hpower : power.Legible :=
    ⟨Or.inl rfl, Nat.toDigits_ne_nil, Text.isDigit_toDigits _⟩
  have hvalue : power.value = d.place := by
    simp only [power, Power.value, Text.digitsValue_toDigits]
    split <;> simp only [Sign.factor] <;> omega
  have hnumeral : power.numeral =
      (if d.place < 0 then '-' else '+') :: Nat.toDigits 10 d.place.natAbs := by
    simp only [power, Power.numeral]
    split <;> rfl
  refine ⟨⟨none, [c], if cs.isEmpty then none else some cs, some power⟩, ?_,
    writtenAs hdigits hne 0 0 ?_ ?_ ?_ (Or.inr hvalue) (Or.inl rfl)⟩
  · rw [scientificText, hcons]
    cases cs <;> simp [Spelling.unsigned, Spelling.body, hnumeral, power]
  · rw [hcons]
    cases cs <;> simp [Spelling.digits, Spelling.decimals, zeros]
  · rintro _ ⟨⟩
    exact hpower
  · simp only [Spelling.exponent, Option.elim_some, hvalue, List.length_singleton]
    omega

end Digits

/-! ## The text -/

variable {m : ℕ} {q : ℤ}

theorem exists_zero (n : Layout) (q : ℤ) :
    ∃ s : Spelling, s.unsigned = magnitudeText n 0 q ∧ s.WellFormed ∧ s.mantissa = 0 := by
  refine ⟨⟨none, ['0'], if n.pointZero then some ['0'] else none, none⟩, ?_, ?_⟩
  · cases h : n.pointZero <;> simp [Spelling.unsigned, Spelling.body, magnitudeText, h]
  · have hpower : ∀ p ∈ (none : Option Power), p.WellFormed :=
      fun _ hp => absurd hp (Option.not_mem_none _)
    split
    next =>
        have hzero := Spelling.mantissa_eq_zero_iff (s := ⟨none, ['0'], some ['0'], none⟩).mpr rfl
        exact ⟨⟨Digits.isDigit_zeros 2, List.cons_ne_nil _ _, hpower, absurd hzero⟩, hzero⟩
    next =>
        have hzero := Spelling.mantissa_eq_zero_iff (s := ⟨none, ['0'], none, none⟩).mpr rfl
        exact ⟨⟨Digits.isDigit_zeros 1, List.cons_ne_nil _ _, hpower, absurd hzero⟩, hzero⟩

theorem exists_magnitudeText (n : Layout) (hm : 0 < m) (hbits : m < 2 ^ 53)
    (hq : leastPower ≤ q) :
    ∃ s, s.unsigned = magnitudeText n m q ∧ (shortest n.tie m q).WrittenAs s := by
  obtain ⟨hcaptures, hdigits⟩ := captures_shortest n.tie hm hbits hq
  have hne : (shortest n.tie m q).digits ≠ [] := by
    intro hnil
    have hpos := hcaptures.pos hm
    rw [Digits.value, hnil, Decimal.fraction, zero_mul] at hpos
    exact lt_irrefl _ hpos
  rw [magnitudeText, if_neg hm.ne']
  simp only
  split
  next => exact Digits.exists_positional _ hdigits hne
  next =>
      split
      next => exact Digits.exists_positional _ hdigits hne
      next => exact Digits.exists_scientific hdigits hne

/-- A number that the double captures is read as the double. -/
theorem readUnsigned_of_captures {s : Spelling} (hs : s.Legible) {negative : Bool}
    (hcanonical : (finite negative m q).Canonical) (hm : 0 < m)
    (h : Captures m q s.magnitude) :
    readUnsigned negative s.unsigned = some (finite negative m q) := by
  rw [s.magnitude_eq] at h
  rw [readUnsigned_unsigned hs, ofScientific_eq_of_captures hcanonical hm h]

/-- The text of a finite double is read as the double. -/
theorem ofText_text (n : Layout) {x : Binary64} (hfinite : x.isFinite = true)
    (hcanonical : x.Canonical) : ofText (x.text n) = some x := by
  match x, hfinite with
  | finite negative m q, _ =>
    rw [text]
    rcases Nat.eq_zero_or_pos m with rfl | hm
    · obtain ⟨s, htext, hs, hzero⟩ := exists_zero n q
      have hq : q = leastPower := hcanonical.2.2.2.resolve_left (by decide)
      rw [← htext, ofText_signed hs.legible.bare_unsigned, readUnsigned_unsigned hs.legible,
        Spelling.mantissa_eq_zero_iff.mp hzero, hq]
      rfl
    · obtain ⟨s, htext, hwritten⟩ := exists_magnitudeText n hm hcanonical.1 hcanonical.2.1
      have hcaptures := (captures_shortest n.tie hm hcanonical.1 hcanonical.2.1).1
      rw [← htext, ofText_signed hwritten.legible.bare_unsigned]
      exact readUnsigned_of_captures hwritten.legible hcanonical hm (hwritten.value ▸ hcaptures)

/-- Seventeen digits would be `0.10000000000000001`; one digit identifies the number. -/
example : (finite false 7205759403792794 (-56)).text exchange = "0.1" := by decide +kernel

theorem point_mem_positionalText (d : Digits) : '.' ∈ positionalText true d := by
  rw [positionalText]
  split
  next => simp
  next =>
      simp only
      split <;> simp

theorem mark_mem_scientificText (d : Digits) : 'e' ∈ scientificText d := by
  simp [scientificText]

theorem mark_mem_magnitudeText {n : Layout} (hn : n.pointZero = true) (m : ℕ) (q : ℤ) :
    '.' ∈ magnitudeText n m q ∨ 'e' ∈ magnitudeText n m q := by
  rw [magnitudeText, hn]
  split
  next => exact Or.inl (by simp)
  next =>
      simp only
      split
      next => exact Or.inl (point_mem_positionalText _)
      next =>
          split
          next => exact Or.inl (point_mem_positionalText _)
          next => exact Or.inr (mark_mem_scientificText _)

/-- Where an integral value keeps its point, no finite double is written as an integer. -/
theorem mark_mem_text {n : Layout} (hn : n.pointZero = true) {x : Binary64}
    (hfinite : x.isFinite = true) : '.' ∈ (x.text n).toList ∨ 'e' ∈ (x.text n).toList := by
  match x, hfinite with
  | finite negative m q, _ =>
    have hmark := mark_mem_magnitudeText hn m q
    rw [text, String.toList_ofList]
    cases negative with
    | true => exact hmark.imp (List.mem_cons_of_mem _) (List.mem_cons_of_mem _)
    | false => exact hmark

/-- What stands in the text of a finite double beside digits. -/
def marks : List Char := ['.', 'e', '+', '-']

theorem mem_positionalText {pointZero : Bool} {d : Digits} {c : Char}
    (h : c ∈ positionalText pointZero d) : c ∈ d.digits ∨ c = '0' ∨ c = '.' := by
  have hzeros : ∀ n, c ∈ zeros n → c = '0' := fun n => List.eq_of_mem_replicate
  rw [positionalText] at h
  split at h
  next =>
      simp only [List.mem_cons, List.mem_append] at h
      grind
  next =>
      simp only at h
      split at h
      next =>
          simp only [List.mem_append] at h
          grind
      next =>
          simp only [List.mem_append, List.mem_cons] at h
          grind [List.mem_of_mem_take, List.mem_of_mem_drop]

theorem mem_scientificText {d : Digits} {c : Char} (h : c ∈ scientificText d) :
    c ∈ d.digits ∨ c.isDigit = true ∨ c ∈ marks := by
  have hexponent := Text.isDigit_toDigits d.place.natAbs c
  simp only [scientificText] at h
  grind [marks, List.mem_of_mem_take, List.mem_of_mem_drop]

theorem mem_magnitudeText {n : Layout} {m : ℕ} {q : ℤ} {c : Char}
    (h : c ∈ magnitudeText n m q) : c.isDigit = true ∨ c ∈ marks := by
  have hpositional : ∀ {pointZero : Bool},
      c ∈ positionalText pointZero (shortest n.tie m q) → c.isDigit = true ∨ c ∈ marks := by
    intro pointZero h
    rcases mem_positionalText h with hdigit | rfl | rfl
    · exact Or.inl (isDigit_digits_shortest _ m q c hdigit)
    · exact Or.inl rfl
    · exact Or.inr List.mem_cons_self
  rw [magnitudeText] at h
  split at h
  next =>
      have hzero : ∀ c ∈ ['0', '.', '0'], c.isDigit = true ∨ c ∈ marks := by simp [marks]
      refine hzero c ?_
      cases hpoint : n.pointZero <;> simp_all
  next =>
      simp only at h
      split at h
      next => exact hpositional h
      next =>
          split at h
          next => exact hpositional h
          next =>
              rcases mem_scientificText h with hdigit | hrest
              · exact Or.inl (isDigit_digits_shortest _ m q c hdigit)
              · exact hrest

/-- A finite double is written with digits and marks. -/
theorem mem_text {n : Layout} {x : Binary64} (hfinite : x.isFinite = true) {c : Char}
    (h : c ∈ (x.text n).toList) : c.isDigit = true ∨ c ∈ marks := by
  match x, hfinite with
  | finite negative m q, _ =>
    rw [text, String.toList_ofList] at h
    cases negative with
    | false => exact mem_magnitudeText h
    | true =>
        rcases List.mem_cons.mp h with rfl | h
        · exact Or.inr (by decide)
        · exact mem_magnitudeText h

/-- Reading yields canonical forms only. -/
theorem canonical_of_ofText {t : String} {x : Binary64} (h : ofText t = some x) : x.Canonical := by
  have hunsigned : ∀ {negative cs}, readUnsigned negative cs = some x → x.Canonical := by
    intro negative cs h
    rw [readUnsigned] at h
    simp only at h
    split at h
    next =>
        cases h
        exact canonical_ofScientific _ _ _
    next =>
        split_ifs at h <;> cases h <;> trivial
  rw [ofText] at h
  split at h
  all_goals exact hunsigned h

end ItemStore.Binary64
