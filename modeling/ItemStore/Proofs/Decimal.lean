import ItemStore.Decimal
import Mathlib.Algebra.Order.Field.Power
import Mathlib.Algebra.Order.Field.Rat
import Mathlib.Data.List.DropRight
import Mathlib.Order.Compare
import Mathlib.Tactic.FieldSimp
import Mathlib.Tactic.Linarith
import Mathlib.Tactic.Positivity
import Std.Data.String.ToInt

/-!
# The order of decimals is the order of their values

A decimal stands for a rational number, `Decimal.value`.  What `Decimal.ofText` reads is always
normal: its digits neither begin nor end with a zero, and zero has one form.  On normal decimals

* `Decimal.compare` is the order of the values (`compare_eq_compare_value`), and so equal
  values have equal forms (`value_inj`);
* `Decimal.toText` loses nothing (`toText_inj`).

Both together make the canonical spelling a name for the value of a text.
-/

namespace ItemStore.Decimal

/-- The number that digits after the point denote. -/
def fraction : List Char → ℚ
  | [] => 0
  | c :: cs => (Text.digitValue c + fraction cs) / 10

/-- The absolute value of a decimal. -/
def magnitude (d : Decimal) : ℚ := fraction d.digits * 10 ^ d.exponent

/-- The number that a decimal stands for. -/
def value (d : Decimal) : ℚ := if d.negative then -d.magnitude else d.magnitude

/-- The one form of each number. -/
structure Normal (d : Decimal) : Prop where
  isDigit : ∀ c ∈ d.digits, c.isDigit = true
  first : d.digits.head? ≠ some '0'
  last : d.digits.getLast? ≠ some '0'
  zero : d.digits = [] → d = Decimal.zero

/-! ## Digits after the point -/

theorem digitValue_le {c : Char} (h : c.isDigit = true) : Text.digitValue c ≤ 9 := by
  simp only [Char.isDigit, Bool.and_eq_true, decide_eq_true_eq, UInt32.le_iff_toNat_le] at h
  have hc : c.toNat ≤ 57 := h.2
  show c.toNat - 48 ≤ 9
  omega

/-- Digits are ordered as the numbers that they denote. -/
theorem compare_digitValue {c d : Char} (hc : c.isDigit = true) (hd : d.isDigit = true) :
    Ord.compare (Text.digitValue c) (Text.digitValue d) = Ord.compare c d := by
  simp only [Char.isDigit, Bool.and_eq_true, decide_eq_true_eq, UInt32.le_iff_toNat_le] at hc hd
  have h₁ : 48 ≤ c.toNat := hc.1
  have h₂ : 48 ≤ d.toNat := hd.1
  have hlt : Text.digitValue c < Text.digitValue d ↔ c < d := by
    rw [Char.lt_def, UInt32.lt_iff_toNat_lt]
    show c.toNat - 48 < d.toNat - 48 ↔ c.toNat < d.toNat
    omega
  have heq : Text.digitValue c = Text.digitValue d ↔ c = d := by
    rw [← Char.toNat_inj]
    show c.toNat - 48 = d.toNat - 48 ↔ c.toNat = d.toNat
    omega
  show compareOfLessAndEq _ _ = compareOfLessAndEq _ _
  simp only [compareOfLessAndEq, hlt, heq]

theorem digitValue_pos {c : Char} (h : c.isDigit = true) (h0 : c ≠ '0') :
    1 ≤ Text.digitValue c := by
  simp only [Char.isDigit, Bool.and_eq_true, decide_eq_true_eq, UInt32.le_iff_toNat_le] at h
  have hle : 48 ≤ c.toNat := h.1
  have hne : c.toNat ≠ 48 := fun he => h0 (Char.toNat_inj.mp he)
  show 1 ≤ c.toNat - 48
  omega

theorem fraction_nonneg (ds : List Char) : 0 ≤ fraction ds := by
  induction ds with
  | nil => simp [fraction]
  | cons c cs ih => simp only [fraction]; positivity

theorem fraction_lt_one {ds : List Char} (h : ∀ c ∈ ds, c.isDigit = true) : fraction ds < 1 := by
  induction ds with
  | nil => simp [fraction]
  | cons c cs ih =>
      have hc : (Text.digitValue c : ℚ) ≤ 9 := by
        exact_mod_cast digitValue_le (h c List.mem_cons_self)
      have hcs := ih fun d hd => h d (List.mem_cons_of_mem _ hd)
      simp only [fraction]
      linarith

/-- The last digit is not zero, which passes to every tail. -/
theorem last_of_cons {c : Char} {cs : List Char} (h : (c :: cs).getLast? ≠ some '0') :
    cs.getLast? ≠ some '0' := by
  cases cs with
  | nil => simp
  | cons d ds => simpa using h

theorem fraction_pos {ds : List Char} (h : ∀ c ∈ ds, c.isDigit = true)
    (hl : ds.getLast? ≠ some '0') (hne : ds ≠ []) : 0 < fraction ds := by
  induction ds with
  | nil => exact absurd rfl hne
  | cons c cs ih =>
      simp only [fraction]
      by_cases hcs : cs = []
      · subst hcs
        have hc : c ≠ '0' := by simpa using hl
        have h1 : (1 : ℚ) ≤ Text.digitValue c := by
          exact_mod_cast digitValue_pos (h c List.mem_cons_self) hc
        simp only [fraction]
        linarith
      · have := ih (fun d hd => h d (List.mem_cons_of_mem _ hd)) (last_of_cons hl) hcs
        positivity

/-- A fraction whose first digit is not zero is at least one tenth. -/
theorem tenth_le_fraction {ds : List Char} (h : ∀ c ∈ ds, c.isDigit = true)
    (hf : ds.head? ≠ some '0') (hne : ds ≠ []) : 1 / 10 ≤ fraction ds := by
  cases ds with
  | nil => exact absurd rfl hne
  | cons c cs =>
      have hc : c ≠ '0' := by simpa using hf
      have h1 : (1 : ℚ) ≤ Text.digitValue c := by
        exact_mod_cast digitValue_pos (h c List.mem_cons_self) hc
      have h0 := fraction_nonneg cs
      simp only [fraction]
      linarith

/-- The first digit decides the order of two fractions, then the other digits do. -/
theorem compare_fraction_cons {m n : ℕ} {f g : ℚ} (hf0 : 0 ≤ f) (hf1 : f < 1) (hg0 : 0 ≤ g)
    (hg1 : g < 1) :
    Ord.compare ((m + f) / 10) ((n + g) / 10) = (Ord.compare m n).then (Ord.compare f g) := by
  rcases lt_trichotomy m n with h | rfl | h
  · have hmn : (m + 1 : ℚ) ≤ n := by exact_mod_cast h
    rw [compare_lt_iff_lt.mpr h, Ordering.lt_then, compare_lt_iff_lt]
    linarith
  · rw [compare_eq_iff_eq.mpr rfl, Ordering.eq_then]
    rcases lt_trichotomy f g with h | rfl | h
    · rw [compare_lt_iff_lt.mpr h, compare_lt_iff_lt]
      linarith
    · rw [compare_eq_iff_eq.mpr rfl, compare_eq_iff_eq.mpr rfl]
    · rw [compare_gt_iff_gt.mpr h, compare_gt_iff_gt]
      linarith
  · have hmn : (n + 1 : ℚ) ≤ m := by exact_mod_cast h
    rw [compare_gt_iff_gt.mpr h, Ordering.gt_then, compare_gt_iff_gt]
    linarith

/-- Without zeros at the end, the order of digits from the left is the order of the fractions. -/
theorem compare_digits {ds es : List Char}
    (hd : ∀ c ∈ ds, c.isDigit = true) (he : ∀ c ∈ es, c.isDigit = true)
    (hdl : ds.getLast? ≠ some '0') (hel : es.getLast? ≠ some '0') :
    Ord.compare ds es = Ord.compare (fraction ds) (fraction es) := by
  induction ds generalizing es with
  | nil =>
      cases es with
      | nil => simp [fraction]
      | cons e es =>
          have hpos := fraction_pos he hel (List.cons_ne_nil _ _)
          rw [List.compare_nil_cons]
          exact (compare_lt_iff_lt.mpr hpos).symm
  | cons d ds ih =>
      cases es with
      | nil =>
          have hpos := fraction_pos hd hdl (List.cons_ne_nil _ _)
          rw [List.compare_cons_nil]
          exact (compare_gt_iff_gt.mpr hpos).symm
      | cons e es =>
          have hd' : ∀ c ∈ ds, c.isDigit = true := fun c hc => hd c (List.mem_cons_of_mem _ hc)
          have he' : ∀ c ∈ es, c.isDigit = true := fun c hc => he c (List.mem_cons_of_mem _ hc)
          rw [List.compare_cons_cons, ih hd' he' (last_of_cons hdl) (last_of_cons hel),
            ← compare_digitValue (hd d List.mem_cons_self) (he e List.mem_cons_self)]
          exact (compare_fraction_cons (fraction_nonneg _) (fraction_lt_one hd')
            (fraction_nonneg _) (fraction_lt_one he')).symm

/-! ## The order of decimals -/

/-- The exponents decide the order of two magnitudes, then the digits do. -/
theorem compare_scaled {f g : ℚ} (hf0 : 1 / 10 ≤ f) (hf1 : f < 1) (hg0 : 1 / 10 ≤ g)
    (hg1 : g < 1) (m n : ℤ) :
    Ord.compare (f * 10 ^ m) (g * 10 ^ n) = (Ord.compare m n).then (Ord.compare f g) := by
  -- A smaller exponent outweighs the digits, as every fraction lies between 1/10 and 1.
  have key : ∀ {f g : ℚ} {m n : ℤ}, f < 1 → 1 / 10 ≤ g → m < n → f * 10 ^ m < g * 10 ^ n := by
    intro f g m n hf hg hmn
    have hm : (0 : ℚ) < 10 ^ m := by positivity
    have hstep : (10 : ℚ) ^ m * 10 ≤ 10 ^ n := by
      rw [← zpow_add_one₀ (by norm_num)]
      exact zpow_le_zpow_right₀ (by norm_num) hmn
    nlinarith
  rcases lt_trichotomy m n with h | rfl | h
  · rw [compare_lt_iff_lt.mpr h, Ordering.lt_then, compare_lt_iff_lt]
    exact key hf1 hg0 h
  · have hm : (0 : ℚ) < 10 ^ m := by positivity
    rw [compare_eq_iff_eq.mpr rfl, Ordering.eq_then]
    rcases lt_trichotomy f g with h | rfl | h
    · rw [compare_lt_iff_lt.mpr h, compare_lt_iff_lt]
      exact mul_lt_mul_of_pos_right h hm
    · rw [compare_eq_iff_eq.mpr rfl, compare_eq_iff_eq.mpr rfl]
    · rw [compare_gt_iff_gt.mpr h, compare_gt_iff_gt]
      exact mul_lt_mul_of_pos_right h hm
  · rw [compare_gt_iff_gt.mpr h, Ordering.gt_then, compare_gt_iff_gt]
    exact key hg1 hf0 h

variable {a b : Decimal}

theorem compareMagnitude_eq (ha : a.Normal) (hb : b.Normal) (hane : a.digits ≠ [])
    (hbne : b.digits ≠ []) :
    compareMagnitude a b = Ord.compare a.magnitude b.magnitude := by
  rw [compareMagnitude, compare_digits ha.isDigit hb.isDigit ha.last hb.last]
  exact (compare_scaled (tenth_le_fraction ha.isDigit ha.first hane)
    (fraction_lt_one ha.isDigit) (tenth_le_fraction hb.isDigit hb.first hbne)
    (fraction_lt_one hb.isDigit) _ _).symm

theorem magnitude_pos (ha : a.Normal) (hane : a.digits ≠ []) : 0 < a.magnitude := by
  have := fraction_pos ha.isDigit ha.last hane
  unfold magnitude
  positivity

/-- The exponent places a number other than zero between two powers of ten. -/
theorem magnitude_bounds (ha : a.Normal) (hane : a.digits ≠ []) :
    (10 : ℚ) ^ (a.exponent - 1) ≤ a.magnitude ∧ a.magnitude < 10 ^ a.exponent := by
  have hpower : (0 : ℚ) < 10 ^ a.exponent := zpow_pos (by norm_num) _
  have hlow := mul_le_mul_of_nonneg_right (tenth_le_fraction ha.isDigit ha.first hane) hpower.le
  have hhigh := mul_lt_mul_of_pos_right (fraction_lt_one ha.isDigit) hpower
  rw [magnitude]
  refine ⟨?_, by rwa [one_mul] at hhigh⟩
  rwa [zpow_sub_one₀ (by norm_num), mul_comm, ← one_div]

theorem abs_value (d : Decimal) : |d.value| = d.magnitude := by
  have hnonneg : 0 ≤ d.magnitude := mul_nonneg (fraction_nonneg _) (zpow_nonneg (by norm_num) _)
  rw [value]
  split
  next => rw [abs_neg, abs_of_nonneg hnonneg]
  next => exact abs_of_nonneg hnonneg

theorem value_zero : Decimal.zero.value = 0 := by
  simp [value, magnitude, Decimal.zero, fraction]

/-- The sign of a decimal is the sign of its value. -/
theorem sign_eq (ha : a.Normal) :
    a.sign = if a.value < 0 then -1 else if a.value = 0 then 0 else 1 := by
  by_cases hane : a.digits = []
  · rw [ha.zero hane, value_zero]
    rfl
  · have hpos := magnitude_pos ha hane
    cases hneg : a.negative with
    | true =>
        have hlt : a.value < 0 := by simpa [value, hneg] using hpos
        simp [sign, hane, hneg, hlt]
    | false =>
        have hval : a.value = a.magnitude := by simp [value, hneg]
        simp [sign, hane, hneg, hval, hpos.ne', not_lt.mpr hpos.le]

theorem value_lt_of_sign_lt (ha : a.Normal) (hb : b.Normal) (h : a.sign < b.sign) :
    a.value < b.value := by
  rw [sign_eq ha, sign_eq hb] at h
  rcases lt_trichotomy b.value 0 with hvb | hvb | hvb
  · rw [if_pos hvb] at h
    split_ifs at h <;> omega
  · rw [hvb, if_neg (lt_irrefl (0 : ℚ)), if_pos rfl] at h
    rw [hvb]
    split_ifs at h with hva
    · exact hva
    all_goals omega
  · rw [if_neg (not_lt.mpr hvb.le), if_neg hvb.ne'] at h
    split_ifs at h with hva hva'
    · exact hva.trans hvb
    · exact hva' ▸ hvb
    · omega

theorem compare_neg_neg (x y : ℚ) : Ord.compare (-x) (-y) = Ord.compare y x := by
  rcases lt_trichotomy y x with h | rfl | h
  · rw [compare_lt_iff_lt.mpr h, compare_lt_iff_lt]
    exact neg_lt_neg h
  · rw [compare_eq_iff_eq.mpr rfl, compare_eq_iff_eq.mpr rfl]
  · rw [compare_gt_iff_gt.mpr h, compare_gt_iff_gt]
    exact neg_lt_neg h

/-- Decimals of one sign are both zero, or have digits and are both negative or both not. -/
theorem eq_zero_or_of_sign_eq (ha : a.Normal) (hb : b.Normal) (h : a.sign = b.sign) :
    (a = Decimal.zero ∧ b = Decimal.zero) ∨
      (a.digits ≠ [] ∧ b.digits ≠ [] ∧ a.negative = b.negative) := by
  by_cases hane : a.digits = []
  · refine Or.inl ⟨ha.zero hane, hb.zero ?_⟩
    by_contra hbne
    cases hneg : b.negative <;> simp [sign, hane, hbne, hneg] at h
  · have hbne : b.digits ≠ [] := by
      intro hbne
      cases hneg : a.negative <;> simp [sign, hane, hbne, hneg] at h
    refine Or.inr ⟨hane, hbne, ?_⟩
    cases hna : a.negative <;> cases hnb : b.negative <;> simp [sign, hane, hbne, hna, hnb] at h ⊢

/-- Decimals are ordered as their values. -/
theorem compare_eq_compare_value (ha : a.Normal) (hb : b.Normal) :
    a.compare b = Ord.compare a.value b.value := by
  rcases lt_trichotomy a.sign b.sign with h | h | h
  · rw [compare, compare_lt_iff_lt.mpr h, compare_lt_iff_lt.mpr (value_lt_of_sign_lt ha hb h)]
  · rcases eq_zero_or_of_sign_eq ha hb h with ⟨rfl, rfl⟩ | ⟨hane, hbne, hneg⟩
    · rw [compare_eq_iff_eq.mpr rfl]
      rfl
    · rw [compare, compare_eq_iff_eq.mpr h]
      cases hna : a.negative with
      | true =>
          simp only [value, ← hneg, hna, if_true, compare_neg_neg]
          exact compareMagnitude_eq hb ha hbne hane
      | false =>
          simp only [value, ← hneg, hna, Bool.false_eq_true, if_false]
          exact compareMagnitude_eq ha hb hane hbne
  · rw [compare, compare_gt_iff_gt.mpr h, compare_gt_iff_gt.mpr (value_lt_of_sign_lt hb ha h)]

theorem eq_of_compareMagnitude {x y : Decimal} (h : compareMagnitude x y = .eq) :
    x.exponent = y.exponent ∧ x.digits = y.digits := by
  simp only [compareMagnitude, Ordering.then_eq_eq, compare_eq_iff_eq] at h
  exact ⟨h.1, Std.LawfulEqOrd.eq_of_compare h.2⟩

/-- Normal decimals that compare equal are one. -/
theorem eq_of_compare (ha : a.Normal) (hb : b.Normal) (h : a.compare b = .eq) : a = b := by
  have hsign : a.sign = b.sign := by
    rw [compare] at h
    split at h
    next heq => exact compare_eq_iff_eq.mp heq
    next hne => exact absurd h hne
  rcases eq_zero_or_of_sign_eq ha hb hsign with ⟨rfl, rfl⟩ | ⟨-, -, hneg⟩
  · rfl
  · have hmag : a.exponent = b.exponent ∧ a.digits = b.digits := by
      rw [compare, compare_eq_iff_eq.mpr hsign] at h
      cases hna : a.negative with
      | true =>
          rw [hna] at h
          have := eq_of_compareMagnitude h
          exact ⟨this.1.symm, this.2.symm⟩
      | false =>
          rw [hna] at h
          exact eq_of_compareMagnitude h
    obtain ⟨na, da, ea⟩ := a
    obtain ⟨nb, db, eb⟩ := b
    simp only [mk.injEq]
    exact ⟨hneg, hmag.2, hmag.1⟩

/-- Normal decimals with one value are one. -/
theorem value_inj (ha : a.Normal) (hb : b.Normal) : a.value = b.value ↔ a = b := by
  constructor
  · intro h
    apply eq_of_compare ha hb
    rw [compare_eq_compare_value ha hb, compare_eq_iff_eq.mpr h]
  · rintro rfl
    rfl

/-! ## What is read is normal -/

theorem mem_of_mem_significant {c : Char} {ds : List Char} (h : c ∈ significant ds) : c ∈ ds := by
  have hx : c ∈ ds.dropWhile (· == '0') := (List.rdropWhile_prefix (· == '0') _).subset h
  exact (List.dropWhile_suffix _).subset hx

theorem head?_significant (ds : List Char) : (significant ds).head? ≠ some '0' := by
  intro h
  obtain ⟨rest, hrest⟩ : significant ds <+: ds.dropWhile (· == '0') :=
    List.rdropWhile_prefix (· == '0') _
  have hhead : (ds.dropWhile (· == '0')).head? = some '0' := by
    rw [← hrest, List.head?_append, h]
    rfl
  have hnot := List.head?_dropWhile_not (· == '0') ds
  rw [hhead] at hnot
  exact absurd hnot (by decide)

theorem getLast?_significant (ds : List Char) : (significant ds).getLast? ≠ some '0' := by
  intro h
  have hne : significant ds ≠ [] := by
    intro he
    rw [he] at h
    exact absurd h (by simp)
  have hlast := List.rdropWhile_last_not (· == '0') (ds.dropWhile (· == '0')) hne
  rw [List.getLast?_eq_some_getLast hne, Option.some.injEq] at h
  exact hlast (by rw [beq_iff_eq]; exact h)

theorem normal_zero : Decimal.zero.Normal :=
  ⟨by simp [Decimal.zero], by simp [Decimal.zero], by simp [Decimal.zero], fun _ => rfl⟩

theorem normal_of_readUnsigned {negative : Bool} {cs : List Char} {d : Decimal}
    (h : readUnsigned negative cs = some d) : d.Normal := by
  obtain ⟨e, -, h⟩ := Option.bind_eq_some_iff.mp h
  split at h
  next hdigits =>
      dsimp only at h
      split at h
      next => cases h; exact normal_zero
      next hne =>
          obtain ⟨point, -, rfl⟩ := Option.map_eq_some_iff.mp h
          rw [Numeral.digitsOnly, Bool.and_eq_true] at hdigits
          refine ⟨?_, head?_significant _, getLast?_significant _, ?_⟩
          · intro c hc
            exact List.all_eq_true.mp hdigits.2 c (mem_of_mem_significant hc)
          · intro he
            exact absurd (List.isEmpty_iff.mpr he) hne
  next => cases h

theorem normal_of_ofText {text : String} {d : Decimal} (h : ofText text = some d) :
    d.Normal := by
  unfold ofText at h
  split at h <;> exact normal_of_readUnsigned h

/-! ## The canonical spelling -/

theorem toText_toList (d : Decimal) :
    d.toText.toList =
      if d.digits = [] then ['0']
      else (if d.negative then ['-'] else []) ++
        ('0' :: '.' :: (d.digits ++ 'e' :: d.exponent.repr.toList)) := by
  by_cases hd : d.digits = []
  · simp [toText, hd]
  · cases hn : d.negative <;> simp [toText, hd, hn, String.toList_append]

/-- The digits of a text end at its exponent mark. -/
theorem takeWhile_digits {ds : List Char} (h : ∀ c ∈ ds, c.isDigit = true) (es : List Char) :
    (ds ++ 'e' :: es).takeWhile Char.isDigit = ds := by
  rw [List.takeWhile_append_of_pos h, List.takeWhile_cons_of_neg (by decide), List.append_nil]

theorem toText_inj (ha : a.Normal) (hb : b.Normal) : a.toText = b.toText ↔ a = b := by
  refine ⟨?_, fun h => h ▸ rfl⟩
  intro h
  have hl := congrArg String.toList h
  rw [toText_toList, toText_toList] at hl
  by_cases hane : a.digits = []
  · by_cases hbne : b.digits = []
    · rw [ha.zero hane, hb.zero hbne]
    · rw [if_pos hane, if_neg hbne] at hl
      split at hl <;> simp at hl
  · by_cases hbne : b.digits = []
    · rw [if_neg hane, if_pos hbne] at hl
      split at hl <;> simp at hl
    · rw [if_neg hane, if_neg hbne] at hl
      have hneg : a.negative = b.negative := by
        cases hna : a.negative <;> cases hnb : b.negative <;> simp [hna, hnb] at hl ⊢
      rw [hneg] at hl
      have hbody := List.append_cancel_left hl
      simp only [List.cons.injEq, true_and] at hbody
      have hdigits : a.digits = b.digits := by
        rw [← takeWhile_digits ha.isDigit a.exponent.repr.toList, hbody,
          takeWhile_digits hb.isDigit]
      rw [hdigits] at hbody
      have htail := List.append_cancel_left hbody
      simp only [List.cons.injEq, true_and] at htail
      have hexp := Int.repr_injective (String.toList_injective htail)
      obtain ⟨na, da, ea⟩ := a
      obtain ⟨nb, db, eb⟩ := b
      simp only [mk.injEq]
      exact ⟨hneg, hdigits, hexp⟩

/-! ## Texts that are numbers -/

/-- Whether the text is read as a number. -/
def isNumber (text : String) : Bool := (ofText text).isSome

theorem exists_normal_of_isNumber {text : String} (h : isNumber text = true) :
    ∃ d : Decimal, ofText text = some d ∧ d.Normal := by
  obtain ⟨d, hd⟩ := Option.isSome_iff_exists.mp h
  exact ⟨d, hd, normal_of_ofText hd⟩

end ItemStore.Decimal
