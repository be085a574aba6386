import ItemStore.Proofs.IntegerText
import ItemStore.Proofs.Rounding

/-!
# The digits of a double identify it

A grid point that `gridPoint?` accepts is captured by the double, so that it rounds back to it.
With seventeen digits the cells of the grid are narrower than the interval of the double, so that a
point is always found, and the digits that `shortest` yields denote a captured number
(`captures_shortest`).
-/

namespace ItemStore.Binary64

variable {m p : ℕ} {q place : ℤ} {tie : TieRule}

/-! ## Grids -/

/-- Powers of ten and of two on a common scale, as naturals. -/
theorem exists_scale (e z : ℤ) : ∃ c : ℚ, 0 < c ∧
    ((Nat.pow 10 e.toNat * Nat.pow 2 (-z).toNat : ℕ) : ℚ) = 10 ^ e * c ∧
    ((Nat.pow 2 z.toNat * Nat.pow 10 (-e).toNat : ℕ) : ℚ) = 2 ^ z * c := by
  refine ⟨10 ^ (-e).toNat * 2 ^ (-z).toNat, by positivity, ?_, ?_⟩
  · rw [← pow_toNat_div (by norm_num : (10 : ℚ) ≠ 0) e]
    push_cast [Nat.pow_eq]
    field_simp
  · rw [← pow_toNat_div two_ne_zero z]
    push_cast [Nat.pow_eq]
    field_simp

theorem powerOfTenLe_iff (e : ℤ) : powerOfTenLe e m q = true ↔ (10 : ℚ) ^ e ≤ m * 2 ^ q := by
  obtain ⟨c, hc, hten, htwo⟩ := exists_scale e q
  rw [powerOfTenLe, decide_eq_true_iff, mul_assoc, ← Nat.cast_le (α := ℚ), hten,
    Nat.cast_mul, htwo, ← mul_assoc, mul_le_mul_iff_left₀ hc]

/-! ## The first digit -/

/-- The decimal logarithm of two lies between 1233 / 4096 and 1234 / 4096. -/
theorem ten_pow_le_two_pow : (10 : ℕ) ^ 1233 ≤ 2 ^ 4096 ∧ (2 : ℕ) ^ 4096 ≤ 10 ^ 1234 := by
  decide +kernel

theorem ten_zpow_le_two_zpow {e k : ℤ} (hk : -4096 ≤ k) (he : 4096 * e + 4096 ≤ 1233 * k) :
    (10 : ℚ) ^ e ≤ 2 ^ k := by
  have hten : (1 : ℚ) ≤ 10 := by norm_num
  obtain ⟨hlow, hhigh⟩ := ten_pow_le_two_pow
  have hlow' : (10 : ℚ) ^ (1233 : ℤ) ≤ 2 ^ (4096 : ℤ) := by exact_mod_cast hlow
  have hhigh' : (2 : ℚ) ^ (4096 : ℤ) ≤ 10 ^ (1234 : ℤ) := by exact_mod_cast hhigh
  suffices h : ((10 : ℚ) ^ e) ^ (4096 : ℤ) ≤ (2 ^ k) ^ (4096 : ℤ) from
    (zpow_le_zpow_iff_left₀ (by positivity) (by positivity) (by decide)).mp h
  rw [← zpow_mul, ← zpow_mul, mul_comm k, zpow_mul 2]
  rcases le_or_gt 0 k with hpos | hneg
  · calc (10 : ℚ) ^ (e * 4096) ≤ 10 ^ (1233 * k) := zpow_le_zpow_right₀ hten (by omega)
      _ = (10 ^ (1233 : ℤ)) ^ k := zpow_mul ..
      _ ≤ (2 ^ (4096 : ℤ)) ^ k := zpow_le_zpow_left₀ hpos (by positivity) hlow'
  · -- Below one the upper bound of the logarithm counts, and the error stays under one place.
    calc (10 : ℚ) ^ (e * 4096) ≤ 10 ^ (1234 * k) := zpow_le_zpow_right₀ hten (by omega)
      _ = (10 ^ (1234 : ℤ)) ^ k := zpow_mul ..
      _ ≤ (2 ^ (4096 : ℤ)) ^ k := by
        rw [← neg_neg k, zpow_neg _ (-k), zpow_neg _ (-k)]
        exact inv_anti₀ (by positivity) (zpow_le_zpow_left₀ (by omega) (by positivity) hhigh')

/-- The leading place is at most that of the number. -/
theorem ten_zpow_leadingPlace_le (hm : 0 < m) (hq : leastPower ≤ q) :
    (10 : ℚ) ^ leadingPlace m q ≤ m * 2 ^ q := by
  simp only [leadingPlace]
  split
  next h => exact (powerOfTenLe_iff _).mp h
  next =>
      split
      next h => exact (powerOfTenLe_iff _).mp h
      next =>
          have hlog : (2 : ℚ) ^ ((m.log2 : ℤ) + q) ≤ m * 2 ^ q := by
            rw [zpow_add₀ two_ne_zero]
            exact mul_le_mul_of_nonneg_right (zpow_log2_le hm) (two_zpow_pos q).le
          rw [leastPower] at hq
          exact (ten_zpow_le_two_zpow (by omega) (by omega)).trans hlog

/-! ## Points of a grid -/

/-- The common scale of the grid and of the quarters of `2 ^ q`. -/
theorem exists_units (q place : ℤ) : ∃ c : ℚ, 0 < c ∧
    (cellUnit q place : ℚ) = 10 ^ place * c ∧ (quarterUnit q place : ℚ) = 2 ^ q / 4 * c := by
  obtain ⟨c, hc, hten, htwo⟩ := exists_scale place (q - 2)
  have hquarter : (2 : ℚ) ^ (q - 2) = 2 ^ q / 4 := by
    rw [zpow_sub₀ two_ne_zero]
    norm_num
  exact ⟨c, hc, hten, by rw [← hquarter]; exact htwo⟩

theorem quarters_eq (hm : 0 < m) (q : ℤ) :
    ((4 * m - if lowerGapIsNarrow m q then 1 else 2 : ℕ) : ℚ) = 4 * (m - gapBelow m q) := by
  rw [gapBelow]
  split
  · rw [Nat.cast_sub (by omega)]
    push_cast
    ring
  · rw [Nat.cast_sub (by omega)]
    push_cast
    ring

/-- The points that are accepted round back to the number. -/
theorem identifies_iff (hm : 0 < m) (p : ℕ) :
    identifies m q place p = true ↔ Captures m q (p * 10 ^ place) := by
  obtain ⟨c, hc, hcell, hquarter⟩ := exists_units q place
  have hhere : ((p * cellUnit q place : ℕ) : ℚ) = p * 10 ^ place * c := by
    rw [Nat.cast_mul, hcell]
    ring
  have hlow : (((4 * m - if lowerGapIsNarrow m q then 1 else 2) * quarterUnit q place : ℕ) : ℚ) =
      (m - gapBelow m q) * 2 ^ q * c := by
    rw [Nat.cast_mul, hquarter, quarters_eq hm]
    ring
  have hhigh : (((4 * m + 2) * quarterUnit q place : ℕ) : ℚ) = (m + 1 / 2) * 2 ^ q * c := by
    rw [Nat.cast_mul, hquarter]
    push_cast
    ring
  simp only [identifies]
  split
  next heven =>
      rw [Bool.and_eq_true, decide_eq_true_iff, decide_eq_true_iff, ← Nat.cast_le (α := ℚ),
        ← Nat.cast_le (α := ℚ), hhere, hlow, hhigh, mul_le_mul_iff_left₀ hc,
        mul_le_mul_iff_left₀ hc]
      exact ⟨fun h => ⟨h.1, h.2, fun hodd => by omega⟩, fun h => ⟨h.low, h.high⟩⟩
  next hodd =>
      rw [Bool.and_eq_true, decide_eq_true_iff, decide_eq_true_iff, ← Nat.cast_lt (α := ℚ),
        ← Nat.cast_lt (α := ℚ), hhere, hlow, hhigh, mul_lt_mul_iff_left₀ hc,
        mul_lt_mul_iff_left₀ hc]
      exact ⟨fun h => ⟨h.1.le, h.2.le, fun _ => h⟩, fun h => h.strict (by omega)⟩

theorem pointBelow_spec (m : ℕ) (q place : ℤ) :
    pointBelow m q place * 10 ^ place ≤ (m * 2 ^ q : ℚ) ∧
      (m * 2 ^ q : ℚ) < (pointBelow m q place + 1 : ℕ) * 10 ^ place := by
  obtain ⟨c, hc, hcell, hquarter⟩ := exists_units q place
  have hcellPos : 0 < cellUnit q place := by
    have : (0 : ℚ) < cellUnit q place := by
      rw [hcell]
      positivity
    exact_mod_cast this
  have hvalue : ((4 * m * quarterUnit q place : ℕ) : ℚ) = m * 2 ^ q * c := by
    rw [Nat.cast_mul, hquarter]
    push_cast
    ring
  have hlow : pointBelow m q place * cellUnit q place ≤ 4 * m * quarterUnit q place :=
    Nat.div_mul_le_self ..
  have hhigh : 4 * m * quarterUnit q place < (pointBelow m q place + 1) * cellUnit q place := by
    rw [mul_comm _ (cellUnit q place)]
    exact Nat.lt_mul_div_succ _ hcellPos
  rw [← Nat.cast_le (α := ℚ), Nat.cast_mul, hcell, hvalue, ← mul_assoc,
    mul_le_mul_iff_left₀ hc] at hlow
  rw [← Nat.cast_lt (α := ℚ), Nat.cast_mul _ (cellUnit q place), hcell, hvalue, ← mul_assoc,
    mul_lt_mul_iff_left₀ hc] at hhigh
  exact ⟨hlow, hhigh⟩

/-- A grid with cells narrower than the interval has a point in it. -/
theorem identifies_of_cell_lt (hm : 0 < m)
    (hcell : (10 : ℚ) ^ place < (gapBelow m q + 1 / 2) * 2 ^ q) :
    identifies m q place (pointBelow m q place) = true ∨
      identifies m q place (pointBelow m q place + 1) = true := by
  obtain ⟨hbelow, habove⟩ := pointBelow_spec m q place
  rw [identifies_iff hm, identifies_iff hm]
  have hpower := two_zpow_pos q
  by_cases hnear : (m - gapBelow m q) * 2 ^ q < pointBelow m q place * 10 ^ place
  · have hhigh : (pointBelow m q place : ℚ) * 10 ^ place < (m + 1 / 2) * 2 ^ q := by linarith
    exact Or.inl ⟨hnear.le, hhigh.le, fun _ => ⟨hnear, hhigh⟩⟩
  · have hgap : 0 ≤ gapBelow m q := by
      rw [gapBelow]
      split <;> norm_num
    have hlow : (m - gapBelow m q) * 2 ^ q < (pointBelow m q place + 1 : ℕ) * 10 ^ place := by
      nlinarith
    have hhigh : ((pointBelow m q place + 1 : ℕ) : ℚ) * 10 ^ place < (m + 1 / 2) * 2 ^ q := by
      push_cast
      linarith
    exact Or.inr ⟨hlow.le, hhigh.le, fun _ => ⟨hlow, hhigh⟩⟩

theorem nearerPoint_eq_or (tie : TieRule) (m : ℕ) (q place : ℤ) :
    nearerPoint tie m q place = pointBelow m q place ∨
      nearerPoint tie m q place = pointBelow m q place + 1 := by
  simp only [nearerPoint]
  cases tie <;> split_ifs <;> simp

theorem identifies_of_gridPoint? (h : gridPoint? tie m q place = some p) :
    identifies m q place p = true := by
  simp only [gridPoint?] at h
  split at h
  next => cases h
  next hbelow _ =>
      cases h
      exact hbelow
  next _ habove =>
      cases h
      exact habove
  next hbelow habove =>
      cases h
      rcases nearerPoint_eq_or tie m q place with heq | heq
      · rwa [heq]
      · rwa [heq]

theorem isSome_gridPoint? (h : identifies m q place (pointBelow m q place) = true ∨
    identifies m q place (pointBelow m q place + 1) = true) :
    (gridPoint? tie m q place).isSome = true := by
  simp only [gridPoint?]
  split
  next hbelow habove => simp [hbelow, habove] at h
  all_goals rfl

/-! ## The search -/

/-- Seventeen digits suffice. -/
theorem cell_lt (hm : 0 < m) (hbits : m < 2 ^ 53) (hq : leastPower ≤ q) :
    (10 : ℚ) ^ (leadingPlace m q - 16) < (gapBelow m q + 1 / 2) * 2 ^ q := by
  have hwidth : (m : ℚ) / 10 ^ 16 < gapBelow m q + 1 / 2 := by
    rw [gapBelow]
    split
    next hnarrow =>
        rw [eq_of_lowerGapIsNarrow hnarrow]
        norm_num
    next =>
        have hbits' : (m : ℚ) + 1 ≤ 2 ^ 53 := by exact_mod_cast hbits
        rw [div_lt_iff₀ (by norm_num)]
        norm_num at hbits' ⊢
        linarith
  calc (10 : ℚ) ^ (leadingPlace m q - 16) = 10 ^ leadingPlace m q / 10 ^ 16 := by
        rw [zpow_sub₀ (by norm_num)]
        rfl
    _ ≤ m * 2 ^ q / 10 ^ 16 := by
        have := ten_zpow_leadingPlace_le hm hq
        gcongr
    _ = m / 10 ^ 16 * 2 ^ q := by ring
    _ < (gapBelow m q + 1 / 2) * 2 ^ q := mul_lt_mul_of_pos_right hwidth (two_zpow_pos q)

/-- The search stops at the latest where there is a point. -/
theorem exists_coarsestPoint?_of_isSome {n : ℕ} (hn : n < 17)
    (h : (gridPoint? tie m q (leadingPlace m q - n)).isSome = true) :
    ∃ k ≤ n, ∃ p, coarsestPoint? tie m q = some (p, leadingPlace m q - k) ∧
      identifies m q (leadingPlace m q - k) p = true := by
  let point (k : ℕ) :=
    (gridPoint? tie m q (leadingPlace m q - k)).map (·, leadingPlace m q - (k : ℤ))
  have hsome : ((List.range (n + 1)).findSome? point).isSome = true :=
    List.findSome?_isSome_iff.mpr ⟨n, List.self_mem_range_succ, by rwa [Option.isSome_map]⟩
  obtain ⟨found, hfound⟩ := Option.isSome_iff_exists.mp hsome
  obtain ⟨k, hk, hpoint⟩ := List.exists_of_findSome?_eq_some hfound
  obtain ⟨p, hp, rfl⟩ := Option.map_eq_some_iff.mp hpoint
  refine ⟨k, Nat.le_of_lt_succ (List.mem_range.mp hk), p, ?_, identifies_of_gridPoint? hp⟩
  have hsplit : 17 = n + 1 + (16 - n) := by omega
  show (List.range 17).findSome? point = _
  rw [hsplit, List.range_add, List.findSome?_append, hfound, Option.some_or]

theorem exists_coarsestPoint? (tie : TieRule) (hm : 0 < m) (hbits : m < 2 ^ 53)
    (hq : leastPower ≤ q) :
    ∃ point place, coarsestPoint? tie m q = some (point, place) ∧
      identifies m q place point = true := by
  have hlast : (gridPoint? tie m q (leadingPlace m q - (16 : ℕ))).isSome = true :=
    isSome_gridPoint? (identifies_of_cell_lt hm (cell_lt hm hbits hq))
  obtain ⟨k, -, p, hp⟩ := exists_coarsestPoint?_of_isSome (by decide) hlast
  exact ⟨p, _, hp⟩

/-! ## Digits -/

namespace Digits

/-- The number that the digits denote. -/
def value (d : Digits) : ℚ := Decimal.fraction d.digits * 10 ^ (d.place + 1)

end Digits

theorem fraction_dropTrailingZeros (ds : List Char) :
    Decimal.fraction (dropTrailingZeros ds) = Decimal.fraction ds := by
  have hsplit : dropTrailingZeros ds ++ ds.rtakeWhile (· == '0') = ds :=
    List.rdropWhile_append_rtakeWhile
  conv_rhs => rw [← hsplit]
  refine (Decimal.fraction_append_zeros _ fun c hc => ?_).symm
  exact beq_iff_eq.mp (List.mem_rtakeWhile_imp (p := (· == '0')) hc)

theorem mem_of_mem_dropTrailingZeros {ds : List Char} {c : Char}
    (h : c ∈ dropTrailingZeros ds) : c ∈ ds :=
  (List.rdropWhile_prefix (· == '0') ds).subset h

theorem shortest_of_coarsestPoint? (h : coarsestPoint? tie m q = some (p, place)) :
    shortest tie m q =
      ⟨dropTrailingZeros (Nat.toDigits 10 p), place + (Nat.toDigits 10 p).length - 1⟩ := by
  rw [shortest, h, Option.getD_some]

/-- The digits denote the point that was found. -/
theorem value_shortest (h : coarsestPoint? tie m q = some (p, place)) :
    (shortest tie m q).value = p * 10 ^ place := by
  rw [shortest_of_coarsestPoint? h, Digits.value]
  simp only
  rw [fraction_dropTrailingZeros, Decimal.fraction_eq, Text.digitsValue_toDigits,
    sub_add_cancel, add_comm place, zpow_add₀ (by norm_num), zpow_natCast]
  field_simp

theorem isDigit_digits_shortest (tie : TieRule) (m : ℕ) (q : ℤ) :
    ∀ c ∈ (shortest tie m q).digits, c.isDigit = true := by
  intro c hc
  exact Text.isDigit_toDigits _ c (mem_of_mem_dropTrailingZeros hc)

/-- The digits of a double denote a number that is rounded to it. -/
theorem captures_shortest (tie : TieRule) (hm : 0 < m) (hbits : m < 2 ^ 53)
    (hq : leastPower ≤ q) :
    Captures m q (shortest tie m q).value ∧
      ∀ c ∈ (shortest tie m q).digits, c.isDigit = true := by
  obtain ⟨point, place, hfound, hinside⟩ := exists_coarsestPoint? tie hm hbits hq
  rw [value_shortest hfound]
  exact ⟨(identifies_iff hm point).mp hinside, isDigit_digits_shortest tie m q⟩

/-- The first digit of a double stands at one of the places of doubles. -/
theorem abs_place_shortest_le (tie : TieRule) (hm : 0 < m) (hbits : m < 2 ^ 53)
    (hleast : leastPower ≤ q) (hgreatest : q ≤ greatestPower) :
    |(shortest tie m q).place| ≤ 401 := by
  obtain ⟨point, place, hfound, hinside⟩ := exists_coarsestPoint? tie hm hbits hleast
  have hcaptures := (identifies_iff hm point).mp hinside
  obtain ⟨hlow, hhigh⟩ :=
    hcaptures.place_bounds (hcaptures.digits_pos hm) hm hbits hleast hgreatest
  rw [shortest_of_coarsestPoint? hfound, abs_le]
  constructor <;> simp only <;> omega

end ItemStore.Binary64
