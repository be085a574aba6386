import ItemStore.Binary64.Shortest
import Mathlib.Algebra.Order.Field.Power
import Mathlib.Tactic.FieldSimp
import Mathlib.Tactic.Linarith
import Mathlib.Tactic.NormNum
import Mathlib.Tactic.Positivity
import Mathlib.Tactic.Ring

/-!
# Rounding to the nearest double

A quotient is scaled so that its whole part has the 53 bits of a significand, and rounded to the
nearest natural number, a half to the even one.  Rounding yields canonical forms only
(`canonical_nearest`).  `Captures m q x` places `x` in an interval around `m * 2 ^ q`, and every
number of that interval is rounded to `m * 2 ^ q` (`nearest_eq_of_captures`).
-/

namespace ItemStore.Binary64

variable {num den m : ℕ} {q : ℤ} {x : ℚ}

/-! ## Powers -/

theorem pow_toNat_div {b : ℚ} (hb : b ≠ 0) (z : ℤ) : b ^ z.toNat / b ^ (-z).toNat = b ^ z := by
  rw [div_eq_iff (pow_ne_zero _ hb), ← zpow_natCast, ← zpow_natCast, ← zpow_add₀ hb]
  congr 1
  omega

/-- A quotient of naturals divided by a power of two, as a quotient of naturals. -/
theorem scaled_quotient (num den : ℕ) (z : ℤ) :
    ((num * Nat.pow 2 (-z).toNat : ℕ) : ℚ) / (den * Nat.pow 2 z.toNat : ℕ) =
      num / den / 2 ^ z := by
  rw [← pow_toNat_div two_ne_zero z]
  push_cast [Nat.pow_eq]
  field_simp

theorem two_zpow_pos (z : ℤ) : (0 : ℚ) < 2 ^ z := zpow_pos two_pos z

theorem div_two_zpow_lt_iff (k : ℕ) : x / 2 ^ q < 2 ^ k ↔ x < 2 ^ (k + q) := by
  rw [div_lt_iff₀ (two_zpow_pos q), ← zpow_natCast, ← zpow_add₀ two_ne_zero]

theorem le_div_two_zpow_iff (k : ℕ) : 2 ^ k ≤ x / 2 ^ q ↔ 2 ^ (k + q) ≤ x := by
  rw [le_div_iff₀ (two_zpow_pos q), ← zpow_natCast, ← zpow_add₀ two_ne_zero]

/-! ## The binary exponent -/

theorem zpow_log2_le (h : 0 < num) : (2 : ℚ) ^ (num.log2 : ℤ) ≤ num := by
  rw [zpow_natCast]
  exact_mod_cast Nat.log2_self_le h.ne'

theorem lt_zpow_log2_succ (num : ℕ) : (num : ℚ) < 2 ^ (num.log2 + 1 : ℤ) := by
  exact_mod_cast @Nat.lt_log2_self num

/-- A positive quotient lies between two neighbouring powers of two. -/
theorem binaryExponent_spec (hnum : 0 < num) (hden : 0 < den) :
    (2 : ℚ) ^ binaryExponent num den ≤ num / den ∧
      (num : ℚ) / den < 2 ^ (binaryExponent num den + 1) := by
  have hden' : (0 : ℚ) < den := by exact_mod_cast hden
  set guess : ℤ := (num.log2 : ℤ) - den.log2 with hguess
  have hlow : (2 : ℚ) ^ (guess - 1) ≤ num / den := by
    rw [le_div_iff₀ hden']
    calc (2 : ℚ) ^ (guess - 1) * den
        ≤ 2 ^ (guess - 1) * 2 ^ (den.log2 + 1 : ℤ) := by
          have := lt_zpow_log2_succ den
          gcongr
      _ = 2 ^ (num.log2 : ℤ) := by
          rw [← zpow_add₀ two_ne_zero]
          congr 1
          omega
      _ ≤ num := zpow_log2_le hnum
  have hhigh : (num : ℚ) / den < 2 ^ (guess + 1) := by
    rw [div_lt_iff₀ hden']
    calc (num : ℚ) < 2 ^ (num.log2 + 1 : ℤ) := lt_zpow_log2_succ num
      _ = 2 ^ (guess + 1) * 2 ^ (den.log2 : ℤ) := by
          rw [← zpow_add₀ two_ne_zero]
          congr 1
          omega
      _ ≤ 2 ^ (guess + 1) * den := by
          have := zpow_log2_le hden
          gcongr
  have htest : num * Nat.pow 2 (-guess).toNat < den * Nat.pow 2 guess.toNat ↔
      (num : ℚ) / den < 2 ^ guess := by
    have hpos : (0 : ℚ) < (den * Nat.pow 2 guess.toNat : ℕ) := by
      rw [Nat.pow_eq]
      positivity
    rw [← div_lt_one (two_zpow_pos guess), ← scaled_quotient, div_lt_one hpos, Nat.cast_lt]
  simp only [binaryExponent, ← hguess]
  split
  next h =>
      rw [sub_add_cancel]
      exact ⟨hlow, htest.mp h⟩
  next h => exact ⟨not_lt.mp (mt htest.mpr h), hhigh⟩

/-! ## The nearest natural number -/

/-- No natural number is nearer to `x` than `r`, and if another is as near, then `r` is even. -/
structure IsNearest (r : ℕ) (x : ℚ) : Prop where
  low : r - 1 / 2 ≤ x
  high : x ≤ r + 1 / 2
  strict : r % 2 = 1 → r - 1 / 2 < x ∧ x < r + 1 / 2

theorem IsNearest.eq {r s : ℕ} (hr : IsNearest r x) (hs : IsNearest s x) : r = s := by
  have not_lt_of_nearest : ∀ {r s : ℕ}, IsNearest r x → IsNearest s x → ¬ r < s := by
    intro r s hr hs hlt
    have hstep : (r : ℚ) + 1 ≤ s := by exact_mod_cast hlt
    -- Only neighbours share a nearest point, the one halfway, and one of them is odd.
    have hnext : s = r + 1 := by
      have : (s : ℚ) ≤ r + 1 := by linarith [hr.high, hs.low]
      exact le_antisymm (by exact_mod_cast this) hlt
    rcases Nat.mod_two_eq_zero_or_one r with heven | hodd
    · have := (hs.strict (by omega)).1
      linarith [hr.high]
    · have := (hr.strict hodd).2
      linarith [hs.low]
  exact le_antisymm (not_lt.mp (not_lt_of_nearest hs hr)) (not_lt.mp (not_lt_of_nearest hr hs))

theorem isNearest_of_nat {r : ℕ} (hden : 0 < den) (hlow : 2 * (r * den) ≤ 2 * num + den)
    (hhigh : 2 * num ≤ 2 * (r * den) + den)
    (hstrict : r % 2 = 1 → 2 * (r * den) < 2 * num + den ∧ 2 * num < 2 * (r * den) + den) :
    IsNearest r (num / den) := by
  have hden' : (0 : ℚ) < den := by exact_mod_cast hden
  have hlow' : 2 * (r * den : ℚ) ≤ 2 * num + den := by exact_mod_cast hlow
  have hhigh' : 2 * num ≤ 2 * (r * den : ℚ) + den := by exact_mod_cast hhigh
  refine ⟨?_, ?_, fun hodd => ⟨?_, ?_⟩⟩
  · rw [le_div_iff₀ hden']
    linarith
  · rw [div_le_iff₀ hden']
    linarith
  · have hlow' : 2 * (r * den : ℚ) < 2 * num + den := by exact_mod_cast (hstrict hodd).1
    rw [lt_div_iff₀ hden']
    linarith
  · have hhigh' : 2 * num < 2 * (r * den : ℚ) + den := by exact_mod_cast (hstrict hodd).2
    rw [div_lt_iff₀ hden']
    linarith

theorem isNearest_roundHalfEven (num : ℕ) (hden : 0 < den) :
    IsNearest (roundHalfEven num den) (num / den) := by
  have hdivision : num / den * den + num % den = num := Nat.div_add_mod' num den
  have hrest : num % den < den := Nat.mod_lt num hden
  have hsucc : (num / den + 1) * den = num / den * den + den := Nat.succ_mul _ _
  simp only [roundHalfEven]
  split
  next hless => apply isNearest_of_nat hden <;> omega
  next hless =>
      split
      next hmore => apply isNearest_of_nat hden <;> omega
      next hmore =>
          -- Halfway between two neighbours, the even one is taken.
          rcases Nat.mod_two_eq_zero_or_one (num / den) with heven | hodd
          · rw [heven, add_zero]
            apply isNearest_of_nat hden <;> omega
          · rw [hodd]
            apply isNearest_of_nat hden <;> omega

/-! ## Canonical forms -/

/-- The power of two at which a quotient is rounded. -/
def unitPower (num den : ℕ) : ℤ := max leastPower (binaryExponent num den - 52)

/-- The double with a significand of at most 53 bits, or the next power of two. -/
def renewed (s : Bool) (r : ℕ) (q : ℤ) : Binary64 :=
  let (significand, power) := if r = 2 ^ 53 then (2 ^ 52, q + 1) else (r, q)
  if greatestPower < power then infinite s else finite s significand power

theorem renewed_of_ne {s : Bool} {r : ℕ} (h : r ≠ 2 ^ 53) :
    renewed s r q = if greatestPower < q then infinite s else finite s r q := by
  rw [renewed, if_neg h]

theorem renewed_carry (s : Bool) (q : ℤ) : renewed s (2 ^ 53) q = renewed s (2 ^ 52) (q + 1) := by
  rw [renewed, if_pos rfl, renewed_of_ne (by decide)]

/-- A positive quotient is rounded at its unit. -/
theorem exists_nearest (s : Bool) (hnum : 0 < num) (hden : 0 < den) :
    ∃ r : ℕ, IsNearest r (num / den / 2 ^ unitPower num den) ∧
      nearest s num den = renewed s r (unitPower num den) := by
  have hscaled : 0 < den * Nat.pow 2 (unitPower num den).toNat := by
    rw [Nat.pow_eq]
    positivity
  refine ⟨_, scaled_quotient num den _ ▸ isNearest_roundHalfEven _ hscaled, ?_⟩
  rw [nearest, if_neg hnum.ne']
  rfl

theorem canonical_renewed (s : Bool) {r : ℕ} (hr : r ≤ 2 ^ 53) (hleast : leastPower ≤ q)
    (hlow : 2 ^ 52 ≤ r ∨ q = leastPower) : (renewed s r q).Canonical := by
  have canonical_of_lt : ∀ {r : ℕ} {q : ℤ}, r < 2 ^ 53 → leastPower ≤ q →
      (2 ^ 52 ≤ r ∨ q = leastPower) → (renewed s r q).Canonical := by
    intro r q hr hleast hlow
    rw [renewed_of_ne hr.ne]
    split
    next => trivial
    next hgreatest => exact ⟨hr, hleast, not_lt.mp hgreatest, hlow⟩
  rcases hr.lt_or_eq with hlt | rfl
  · exact canonical_of_lt hlt hleast hlow
  · rw [renewed_carry]
    exact canonical_of_lt (by decide) (hleast.trans (Int.le_add_one le_rfl)) (Or.inl le_rfl)

/-- The scaled quotient has the bits of a significand; at the least power it may have fewer. -/
theorem unit_spec (hnum : 0 < num) (hden : 0 < den) :
    (num : ℚ) / den / 2 ^ unitPower num den < 2 ^ 53 ∧
      (2 ^ 52 ≤ (num : ℚ) / den / 2 ^ unitPower num den ∨ unitPower num den = leastPower) := by
  obtain ⟨hlow, hhigh⟩ := binaryExponent_spec hnum hden
  rw [div_two_zpow_lt_iff, le_div_two_zpow_iff, unitPower]
  refine ⟨hhigh.trans_le (zpow_le_zpow_right₀ one_le_two (by omega)), ?_⟩
  rcases max_choice leastPower (binaryExponent num den - 52) with hleast | hunit
  · exact Or.inr hleast
  · refine Or.inl (le_trans (zpow_le_zpow_right₀ one_le_two ?_) hlow)
    omega

theorem IsNearest.le {r n : ℕ} (h : IsNearest r x) (hx : x < n) : r ≤ n := by
  by_contra hlt
  have : (n : ℚ) + 1 ≤ r := by exact_mod_cast not_le.mp hlt
  linarith [h.low]

theorem IsNearest.ge {r n : ℕ} (h : IsNearest r x) (hx : n ≤ x) : n ≤ r := by
  by_contra hlt
  have : (r : ℚ) + 1 ≤ n := by exact_mod_cast not_le.mp hlt
  linarith [h.high]

theorem canonical_zero (s : Bool) : (zero s).Canonical :=
  ⟨by decide, by decide, by decide, by decide⟩

/-- Rounding yields canonical forms only. -/
theorem canonical_nearest (s : Bool) (num : ℕ) (hden : 0 < den) :
    (nearest s num den).Canonical := by
  rcases Nat.eq_zero_or_pos num with rfl | hnum
  · exact canonical_zero s
  obtain ⟨r, hr, hround⟩ := exists_nearest s hnum hden
  obtain ⟨hhigh, hlow⟩ := unit_spec hnum hden
  have hle : r ≤ 2 ^ 53 := hr.le (by exact_mod_cast hhigh)
  rw [hround]
  refine canonical_renewed s hle (le_max_left ..) ?_
  exact hlow.imp_left fun h => hr.ge (by exact_mod_cast h)

/-! ## The numbers that round to a double -/

/-- The distance from `m * 2 ^ q` to the numbers below that still round to it, in units of
`2 ^ q`. -/
def gapBelow (m : ℕ) (q : ℤ) : ℚ := if lowerGapIsNarrow m q then 1 / 4 else 1 / 2

theorem eq_of_lowerGapIsNarrow (h : lowerGapIsNarrow m q = true) : m = 2 ^ 52 := by
  simp only [lowerGapIsNarrow, Bool.and_eq_true, beq_iff_eq] at h
  exact h.1

theorem gapBelow_of_odd (h : m % 2 = 1) : gapBelow m q = 1 / 2 := by
  refine if_neg fun hnarrow => ?_
  rw [eq_of_lowerGapIsNarrow hnarrow] at h
  exact absurd h (by decide)

/-- The number lies in the interval around `m * 2 ^ q` that rounds to it.  The ends belong to the
interval of an even significand. -/
structure Captures (m : ℕ) (q : ℤ) (x : ℚ) : Prop where
  low : (m - gapBelow m q) * 2 ^ q ≤ x
  high : x ≤ (m + 1 / 2) * 2 ^ q
  strict : m % 2 = 1 → (m - gapBelow m q) * 2 ^ q < x ∧ x < (m + 1 / 2) * 2 ^ q

theorem gapBelow_le (m : ℕ) (q : ℤ) : gapBelow m q ≤ 1 / 2 := by
  rw [gapBelow]
  split <;> norm_num

theorem Captures.pos (h : Captures m q x) (hm : 0 < m) : 0 < x := by
  have hm' : (1 : ℚ) ≤ m := by exact_mod_cast hm
  have hgap : 0 < m - gapBelow m q := by linarith [gapBelow_le m q]
  exact (mul_pos hgap (two_zpow_pos q)).trans_le h.low

theorem Captures.isNearest (h : Captures m q x) : IsNearest m (x / 2 ^ q) := by
  have hgap := gapBelow_le m q
  have hlow : m - gapBelow m q ≤ x / 2 ^ q := (le_div_iff₀ (two_zpow_pos q)).mpr h.low
  refine ⟨by linarith, (div_le_iff₀ (two_zpow_pos q)).mpr h.high, fun hodd => ⟨?_, ?_⟩⟩
  · have := (lt_div_iff₀ (two_zpow_pos q)).mpr (h.strict hodd).1
    linarith
  · exact (div_lt_iff₀ (two_zpow_pos q)).mpr (h.strict hodd).2

theorem unitPower_eq (hnum : 0 < num) (hden : 0 < den) (hleast : leastPower ≤ q)
    (hhigh : (num : ℚ) / den / 2 ^ q < 2 ^ 53)
    (hlow : 2 ^ 52 ≤ (num : ℚ) / den / 2 ^ q ∨ q = leastPower) : unitPower num den = q := by
  obtain ⟨hexpLow, hexpHigh⟩ := binaryExponent_spec hnum hden
  rw [div_two_zpow_lt_iff] at hhigh
  rw [le_div_two_zpow_iff] at hlow
  have hle : binaryExponent num den < 53 + q :=
    (zpow_lt_zpow_iff_right₀ one_lt_two).mp (hexpLow.trans_lt hhigh)
  rw [unitPower]
  rcases hlow with hlow | rfl
  · have hge : 52 + q < binaryExponent num den + 1 :=
      (zpow_lt_zpow_iff_right₀ one_lt_two).mp (hlow.trans_lt hexpHigh)
    omega
  · omega

/-- Where a number captured by `m * 2 ^ q` is below the numbers of its power, `m` is the least
significand of that power, and the number is so near that it is carried up to it. -/
theorem Captures.of_lower (h : Captures m q x) (hm : 2 ^ 52 ≤ m) (hq : leastPower < q)
    (hx : x / 2 ^ q < 2 ^ 52) :
    m = 2 ^ 52 ∧ 2 ^ 53 - 1 / 2 ≤ x / 2 ^ (q - 1) ∧ x / 2 ^ (q - 1) < 2 ^ 53 := by
  have hdouble : x / 2 ^ (q - 1) = 2 * (x / 2 ^ q) := by
    rw [zpow_sub_one₀ two_ne_zero]
    field_simp
  have hmin : m = 2 ^ 52 := by
    by_contra hne
    have hlt : ((2 ^ 52 : ℕ) : ℚ) + 1 ≤ m := by exact_mod_cast lt_of_le_of_ne hm (Ne.symm hne)
    push_cast at hlt
    linarith [h.isNearest.low]
  have hgap : gapBelow m q = 1 / 4 := by
    have hnarrow : lowerGapIsNarrow m q = true := by simp [lowerGapIsNarrow, hmin, hq]
    rw [gapBelow, if_pos hnarrow]
  have hlow := (le_div_iff₀ (two_zpow_pos q)).mpr h.low
  rw [hgap, hmin] at hlow
  push_cast at hlow
  refine ⟨hmin, ?_, ?_⟩ <;> linarith

/-- Every number that a double captures is rounded to it. -/
theorem nearest_eq_of_captures {s : Bool} (hden : 0 < den) (hcanonical : (finite s m q).Canonical)
    (hm : 0 < m) (h : Captures m q (num / den)) : nearest s num den = finite s m q := by
  obtain ⟨hbits, hleast, hgreatest, hnormal⟩ := hcanonical
  have hnum : 0 < num := by
    have hx := h.pos hm
    by_contra hzero
    simp [Nat.eq_zero_of_not_pos hzero] at hx
  have hhigh : (num : ℚ) / den / 2 ^ q < 2 ^ 53 := by
    have hbits' : (m : ℚ) + 1 ≤ 2 ^ 53 := by exact_mod_cast hbits
    linarith [h.isNearest.high]
  obtain ⟨r, hr, hround⟩ := exists_nearest s hnum hden
  by_cases hown : 2 ^ 52 ≤ (num : ℚ) / den / 2 ^ q ∨ q = leastPower
  · rw [unitPower_eq hnum hden hleast hhigh hown] at hr hround
    rw [hround, hr.eq h.isNearest, renewed_of_ne hbits.ne, if_neg (not_lt.mpr hgreatest)]
  · rw [not_or, not_le] at hown
    have hmin : 2 ^ 52 ≤ m := hnormal.resolve_right hown.2
    have hq : leastPower < q := lt_of_le_of_ne hleast (Ne.symm hown.2)
    obtain ⟨rfl, hlow', hhigh'⟩ := h.of_lower hmin hq hown.1
    have hunit : unitPower num den = q - 1 :=
      unitPower_eq hnum hden (by omega) hhigh' (Or.inl (by linarith))
    rw [hunit] at hr hround
    have hcarry : r = 2 ^ 53 :=
      hr.eq ⟨by exact_mod_cast hlow', by push_cast; linarith, fun hodd => absurd hodd (by decide)⟩
    rw [hround, hcarry, renewed_carry, sub_add_cancel, renewed_of_ne (by decide),
      if_neg (not_lt.mpr hgreatest)]

/-! ## Decimal quotients -/

theorem Captures.lt (h : Captures m q x) (hbits : m < 2 ^ 53) (hq : q ≤ greatestPower) :
    x < 2 ^ (1024 : ℤ) := by
  have hm : (m : ℚ) + 1 ≤ 2 ^ 53 := by exact_mod_cast hbits
  calc x ≤ (m + 1 / 2) * 2 ^ q := h.high
    _ < 2 ^ (53 : ℤ) * 2 ^ q := by
      refine mul_lt_mul_of_pos_right ?_ (two_zpow_pos q)
      norm_num at hm ⊢
      linarith
    _ = 2 ^ (53 + q) := (zpow_add₀ two_ne_zero ..).symm
    _ ≤ 2 ^ (1024 : ℤ) := zpow_le_zpow_right₀ one_le_two (by rw [greatestPower] at hq; omega)

theorem Captures.ge (h : Captures m q x) (hm : 0 < m) (hq : leastPower ≤ q) :
    2 ^ (-1075 : ℤ) ≤ x := by
  have hm' : (1 : ℚ) ≤ m := by exact_mod_cast hm
  calc (2 : ℚ) ^ (-1075 : ℤ) ≤ 2 ^ (-1 + q) :=
        zpow_le_zpow_right₀ one_le_two (by rw [leastPower] at hq; omega)
    _ = 2 ^ (-1 : ℤ) * 2 ^ q := zpow_add₀ two_ne_zero ..
    _ ≤ (m - gapBelow m q) * 2 ^ q := by
      refine mul_le_mul_of_nonneg_right ?_ (two_zpow_pos q).le
      have := gapBelow_le m q
      norm_num at this ⊢
      linarith
    _ ≤ x := h.low

theorem two_zpow_le_ten_zpow : (2 : ℚ) ^ (1200 : ℤ) ≤ 10 ^ (400 : ℤ) := by
  calc (2 : ℚ) ^ (1200 : ℤ) = (2 ^ (3 : ℤ)) ^ (400 : ℤ) := zpow_mul 2 3 400
    _ ≤ 10 ^ (400 : ℤ) := zpow_le_zpow_left₀ (by decide) (by positivity) (by norm_num)

/-- Captured numbers lie far inside the powers of ten that are settled at a glance. -/
theorem Captures.ten_zpow_bounds (h : Captures m q x) (hm : 0 < m) (hbits : m < 2 ^ 53)
    (hleast : leastPower ≤ q) (hgreatest : q ≤ greatestPower) :
    (10 : ℚ) ^ (-400 : ℤ) ≤ x ∧ x < 10 ^ (400 : ℤ) := by
  constructor
  · calc (10 : ℚ) ^ (-400 : ℤ) ≤ 2 ^ (-1200 : ℤ) := by
          rw [zpow_neg, zpow_neg]
          exact inv_anti₀ (two_zpow_pos _) two_zpow_le_ten_zpow
      _ ≤ 2 ^ (-1075 : ℤ) := zpow_le_zpow_right₀ one_le_two (by decide)
      _ ≤ x := h.ge hm hleast
  · calc x < (2 : ℚ) ^ (1024 : ℤ) := h.lt hbits hgreatest
      _ ≤ 2 ^ (1200 : ℤ) := zpow_le_zpow_right₀ one_le_two (by decide)
      _ ≤ 10 ^ (400 : ℤ) := two_zpow_le_ten_zpow

/-- The number of its digits places a natural number between two powers of ten. -/
theorem digits_bounds {digits : ℕ} (h : 0 < digits) :
    10 ^ ((Nat.toDigits 10 digits).length - 1) ≤ digits ∧
      digits < 10 ^ (Nat.toDigits 10 digits).length := by
  have hlength : 0 < (Nat.toDigits 10 digits).length := Nat.length_toDigits_pos
  refine ⟨?_, (Nat.length_toDigits_le_iff (by decide) hlength).mp le_rfl⟩
  by_contra hlt
  rcases Nat.eq_zero_or_pos ((Nat.toDigits 10 digits).length - 1) with hone | hmore
  · rw [hone] at hlt
    omega
  · have := (Nat.length_toDigits_le_iff (by decide) hmore).mpr (not_le.mp hlt)
    omega

/-- The place of the first digit, as `ofScientific` finds it. -/
theorem scientific_bounds {digits : ℕ} (h : 0 < digits) (exponent : ℤ) :
    (10 : ℚ) ^ (exponent + (Nat.toDigits 10 digits).length - 1) ≤ digits * 10 ^ exponent ∧
      digits * 10 ^ exponent < (10 : ℚ) ^ (exponent + (Nat.toDigits 10 digits).length) := by
  have hten : (10 : ℚ) ≠ 0 := by norm_num
  have hpower : (0 : ℚ) < 10 ^ exponent := zpow_pos (by norm_num) exponent
  have hlength : 0 < (Nat.toDigits 10 digits).length := Nat.length_toDigits_pos
  obtain ⟨hfirst, hlast⟩ := digits_bounds h
  constructor
  · have hplace : exponent + (Nat.toDigits 10 digits).length - 1 =
        ((Nat.toDigits 10 digits).length - 1 : ℕ) + exponent := by omega
    rw [hplace, zpow_add₀ hten, zpow_natCast]
    exact mul_le_mul_of_nonneg_right (by exact_mod_cast hfirst) hpower.le
  · rw [add_comm, zpow_add₀ hten, zpow_natCast]
    exact mul_lt_mul_of_pos_right (by exact_mod_cast hlast) hpower

/-- A captured number has its first digit at one of the places of doubles. -/
theorem Captures.place_bounds {digits : ℕ} {exponent : ℤ} (hdigits : 0 < digits) (hm : 0 < m)
    (hbits : m < 2 ^ 53) (hleast : leastPower ≤ q) (hgreatest : q ≤ greatestPower)
    (h : Captures m q (digits * 10 ^ exponent)) :
    ¬ 400 < exponent + (Nat.toDigits 10 digits).length ∧
      ¬ exponent + (Nat.toDigits 10 digits).length < -400 := by
  have hten : (1 : ℚ) ≤ 10 := by norm_num
  obtain ⟨hfirst, hlast⟩ := scientific_bounds hdigits exponent
  obtain ⟨hlow, hhigh⟩ := h.ten_zpow_bounds hm hbits hleast hgreatest
  constructor
  · intro hplace
    have hge : (10 : ℚ) ^ (400 : ℤ) ≤ digits * 10 ^ exponent :=
      (zpow_le_zpow_right₀ hten (by omega)).trans hfirst
    exact absurd hge (not_le.mpr hhigh)
  · intro hplace
    have hlt : digits * 10 ^ exponent < (10 : ℚ) ^ (-400 : ℤ) :=
      hlast.trans_le (zpow_le_zpow_right₀ hten (by omega))
    exact absurd hlt (not_lt.mpr hlow)

theorem Captures.digits_pos {digits : ℕ} {exponent : ℤ} (hm : 0 < m)
    (h : Captures m q (digits * 10 ^ exponent)) : 0 < digits := by
  have hx := h.pos hm
  by_contra hzero
  simp [Nat.eq_zero_of_not_pos hzero] at hx

/-- The shortcuts for numbers far outside the range of doubles are not taken for a captured
number. -/
theorem ofScientific_eq_of_captures {s : Bool} {digits : ℕ} {exponent : ℤ}
    (hcanonical : (finite s m q).Canonical) (hm : 0 < m)
    (h : Captures m q (digits * 10 ^ exponent)) :
    ofScientific s digits exponent = finite s m q := by
  have hdigits := h.digits_pos hm
  obtain ⟨hlow, hhigh⟩ :=
    h.place_bounds hdigits hm hcanonical.1 hcanonical.2.1 hcanonical.2.2.1
  rw [ofScientific, if_neg hdigits.ne']
  simp only [if_neg hlow, if_neg hhigh]
  refine nearest_eq_of_captures (Nat.pow_pos (by decide)) hcanonical hm ?_
  rw [← pow_toNat_div (by norm_num : (10 : ℚ) ≠ 0) exponent] at h
  push_cast [Nat.pow_eq]
  rwa [mul_div_assoc]

theorem canonical_ofScientific (s : Bool) (digits : ℕ) (exponent : ℤ) :
    (ofScientific s digits exponent).Canonical := by
  rw [ofScientific]
  split
  next => exact canonical_zero s
  next =>
      simp only
      split_ifs
      · trivial
      · exact canonical_zero s
      · exact canonical_nearest s _ (Nat.pow_pos (by decide))

end ItemStore.Binary64
