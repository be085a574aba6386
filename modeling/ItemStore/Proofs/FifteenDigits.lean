import ItemStore.Proofs.DoubleNumber

/-!
# Fifteen digits survive

In the normal range the doubles lie closer together than the numbers of fifteen digits.  Such a
number is captured by a double, and of the points of its grid it is the only one that is, so that
the double is written as the number (`exists_written`).
-/

namespace ItemStore.Binary64

variable {m : ℕ} {q g : ℤ} {v w : ℚ} {tie : TieRule}

/-! ## The double that captures a number -/

/-- Rounding at full precision captures what is rounded. -/
theorem captures_of_isNearest (h : IsNearest m (v / 2 ^ q)) (hnormal : 2 ^ 52 ≤ v / 2 ^ q) :
    Captures m q v := by
  have hpower := two_zpow_pos q
  have hlow : m - gapBelow m q ≤ v / 2 ^ q := by
    rw [gapBelow]
    split
    next hnarrow =>
        rw [eq_of_lowerGapIsNarrow hnarrow]
        push_cast
        linarith
    next => exact h.low
  refine ⟨(le_div_iff₀ hpower).mp hlow, (div_le_iff₀ hpower).mp h.high, fun hodd => ⟨?_, ?_⟩⟩
  · rw [gapBelow_of_odd hodd]
    exact (lt_div_iff₀ hpower).mp (h.strict hodd).1
  · exact (div_lt_iff₀ hpower).mp (h.strict hodd).2

/-- A number just below a power of two is captured by the power. -/
theorem captures_of_carry (hleast : leastPower < q) (hlow : 2 ^ 53 - 1 / 2 ≤ v / 2 ^ (q - 1))
    (hhigh : v / 2 ^ (q - 1) < 2 ^ 53) : Captures (2 ^ 52) q v := by
  have hpower := two_zpow_pos q
  have hdouble : v / 2 ^ (q - 1) = 2 * (v / 2 ^ q) := by
    rw [zpow_sub_one₀ two_ne_zero]
    field_simp
  have hgap : gapBelow (2 ^ 52) q = 1 / 4 := by
    rw [gapBelow, if_pos]
    simp [lowerGapIsNarrow, hleast]
  rw [hdouble] at hlow hhigh
  refine ⟨(le_div_iff₀ hpower).mp ?_, (div_le_iff₀ hpower).mp ?_, fun hodd => ?_⟩
  · rw [hgap]
    push_cast
    linarith
  · push_cast
    linarith
  · exact absurd hodd (by decide)

theorem ten_pow_308_le : 3 * 10 ^ 308 ≤ 2 * 2 ^ 1024 ∧ 10 ^ 307 ≤ 2 ^ 1022 := by
  decide +kernel

/-- A number that stays below the greatest doubles leaves the room of a power of two. -/
theorem lt_of_two_zpow_le {k : ℤ} (h : 2 ^ k ≤ 3 / 2 * v) (hv : v < 10 ^ (308 : ℤ)) :
    k < 1024 := by
  have htop : (3 : ℚ) * 10 ^ (308 : ℤ) ≤ 2 * 2 ^ (1024 : ℤ) := by
    exact_mod_cast ten_pow_308_le.1
  have hlt : (2 : ℚ) ^ k < 2 ^ (1024 : ℤ) := by
    generalize (10 : ℚ) ^ (308 : ℤ) = a at hv htop
    generalize (2 : ℚ) ^ (1024 : ℤ) = b at htop ⊢
    linarith
  exact (zpow_lt_zpow_iff_right₀ one_lt_two).mp hlt

/-- Each number of the normal range, but for the greatest ones, is captured by a double of full
precision. -/
theorem exists_captures (hlow : (2 : ℚ) ^ (-1022 : ℤ) ≤ v) (hhigh : v < 10 ^ (308 : ℤ)) :
    ∃ m q, 2 ^ 52 ≤ m ∧ m < 2 ^ 53 ∧ leastPower ≤ q ∧ q ≤ greatestPower ∧ Captures m q v := by
  have hv : 0 < v := (two_zpow_pos _).trans_le hlow
  obtain ⟨num, den, hnum, hden, rfl⟩ : ∃ num den : ℕ, 0 < num ∧ 0 < den ∧ v = num / den := by
    obtain ⟨num, hnum⟩ := Int.eq_ofNat_of_zero_le (Rat.num_pos.mpr hv).le
    have hquotient := Rat.num_div_den v
    rw [hnum] at hquotient
    refine ⟨num, v.den, ?_, v.den_pos, hquotient.symm.trans (by rw [Int.cast_natCast])⟩
    have hpos := Rat.num_pos.mpr hv
    omega
  obtain ⟨r, hr, -⟩ := exists_nearest false hnum hden
  obtain ⟨hscaled, hfull⟩ := unit_spec hnum hden
  have hleast : leastPower ≤ unitPower num den := le_max_left ..
  have hnormal : 2 ^ 52 ≤ (num : ℚ) / den / 2 ^ unitPower num den := by
    rcases hfull with hfull | hunit
    · exact hfull
    · rw [hunit, le_div_two_zpow_iff]
      exact hlow
  have hrhigh : r ≤ 2 ^ 53 := hr.le (by exact_mod_cast hscaled)
  have hrlow : 2 ^ 52 ≤ r := hr.ge (by exact_mod_cast hnormal)
  rcases hrhigh.lt_or_eq with hlt | rfl
  · have hpower : (2 : ℚ) ^ (52 + unitPower num den) ≤ num / den :=
      (le_div_two_zpow_iff 52).mp hnormal
    have hgreatest := lt_of_two_zpow_le (hpower.trans (by linarith)) hhigh
    exact ⟨r, _, hrlow, hlt, hleast, by rw [greatestPower]; omega,
      captures_of_isNearest hr hnormal⟩
  · -- The significand is carried to the next power of two.
    have hcarry : (2 : ℚ) ^ 53 - 1 / 2 ≤ num / den / 2 ^ unitPower num den := by
      exact_mod_cast hr.low
    have hpower : (2 : ℚ) ^ (53 + unitPower num den) ≤ 3 / 2 * (num / den) := by
      have hunit := two_zpow_pos (unitPower num den)
      rw [le_div_iff₀ hunit] at hcarry
      rw [zpow_add₀ two_ne_zero]
      norm_num at hcarry ⊢
      linarith
    have hgreatest := lt_of_two_zpow_le hpower hhigh
    refine ⟨2 ^ 52, unitPower num den + 1, le_rfl, by decide, by omega,
      by rw [greatestPower]; omega, captures_of_carry (by omega) ?_ ?_⟩
    · rwa [add_sub_cancel_right]
    · rwa [add_sub_cancel_right]

/-! ## Grids -/

/-- The number is a multiple of a power of ten. -/
def OnGrid (g : ℤ) (v : ℚ) : Prop := ∃ k : ℕ, v = k * 10 ^ g

theorem OnGrid.mono {g' : ℤ} (h : OnGrid g v) (hg : g' ≤ g) : OnGrid g' v := by
  obtain ⟨k, rfl⟩ := h
  obtain ⟨n, hn⟩ := Int.eq_ofNat_of_zero_le (sub_nonneg.mpr hg)
  refine ⟨k * 10 ^ n, ?_⟩
  have hsplit : g = n + g' := by omega
  rw [hsplit, zpow_add₀ (by norm_num), zpow_natCast]
  push_cast
  ring

/-- Points of a grid that lie closer together than its cells are one. -/
theorem OnGrid.eq_of_near (hv : OnGrid g v) (hw : OnGrid g w) (h : |v - w| < 10 ^ g) : v = w := by
  obtain ⟨k, rfl⟩ := hv
  obtain ⟨l, rfl⟩ := hw
  have hcell : (0 : ℚ) < 10 ^ g := zpow_pos (by norm_num) g
  rw [← sub_mul, abs_mul, abs_of_pos hcell] at h
  have hnear : |((k : ℤ) - l : ℤ)| < 1 := by
    have hunit : |(k : ℚ) - l| < 1 := by
      by_contra hge
      exact absurd h (not_lt.mpr (le_mul_of_one_le_left hcell.le (not_lt.mp hge)))
    exact_mod_cast hunit
  have hkl : (k : ℤ) = l := by
    have := Int.abs_lt_one_iff.mp hnear
    omega
  rw [show k = l by exact_mod_cast hkl]

/-! ## The grid of fifteen digits -/

theorem two_zpow_le_ten_zpow_of_log {e k : ℤ} (hk : k ≤ 2048) (he : 1233 * k + 2048 ≤ 4096 * e) :
    (2 : ℚ) ^ k ≤ 10 ^ e := by
  have hten : (1 : ℚ) ≤ 10 := by norm_num
  obtain ⟨hlow, hhigh⟩ := ten_pow_le_two_pow
  have hlow' : (10 : ℚ) ^ (1233 : ℤ) ≤ 2 ^ (4096 : ℤ) := by exact_mod_cast hlow
  have hhigh' : (2 : ℚ) ^ (4096 : ℤ) ≤ 10 ^ (1234 : ℤ) := by exact_mod_cast hhigh
  suffices h : ((2 : ℚ) ^ k) ^ (4096 : ℤ) ≤ (10 ^ e) ^ (4096 : ℤ) from
    (zpow_le_zpow_iff_left₀ (by positivity) (by positivity) (by decide)).mp h
  rw [← zpow_mul, ← zpow_mul, mul_comm k, zpow_mul 2]
  rcases le_or_gt 0 k with hpos | hneg
  · calc ((2 : ℚ) ^ (4096 : ℤ)) ^ k
        ≤ (10 ^ (1234 : ℤ)) ^ k := zpow_le_zpow_left₀ hpos (by positivity) hhigh'
      _ = 10 ^ (1234 * k) := (zpow_mul ..).symm
      _ ≤ 10 ^ (e * 4096) := zpow_le_zpow_right₀ hten (by omega)
  · calc ((2 : ℚ) ^ (4096 : ℤ)) ^ k
        ≤ (10 ^ (1233 : ℤ)) ^ k := by
          rw [← neg_neg k, zpow_neg _ (-k), zpow_neg _ (-k)]
          exact inv_anti₀ (by positivity) (zpow_le_zpow_left₀ (by omega) (by positivity) hlow')
      _ = 10 ^ (1233 * k) := (zpow_mul ..).symm
      _ ≤ 10 ^ (e * 4096) := zpow_le_zpow_right₀ hten (by omega)

/-- The leading place is at least that of the number. -/
theorem lt_ten_zpow_leadingPlace (hbits : m < 2 ^ 53) (hgreatest : q ≤ greatestPower) :
    (m * 2 ^ q : ℚ) < 10 ^ (leadingPlace m q + 1) := by
  simp only [leadingPlace]
  split
  next =>
      have hlog : (m * 2 ^ q : ℚ) < 2 ^ ((m.log2 : ℤ) + 1 + q) := by
        rw [zpow_add₀ two_ne_zero]
        exact mul_lt_mul_of_pos_right (lt_zpow_log2_succ m) (two_zpow_pos q)
      have hbound : m.log2 < 53 := by
        rcases Nat.eq_zero_or_pos m with rfl | hm
        · decide
        · exact (Nat.log2_lt hm.ne').mpr hbits
      rw [greatestPower] at hgreatest
      exact hlog.trans_le (two_zpow_le_ten_zpow_of_log (by omega) (by omega))
  next h =>
      split
      next => exact not_le.mp (mt (powerOfTenLe_iff _).mpr h)
      next h =>
          rw [sub_add_cancel]
          exact not_le.mp (mt (powerOfTenLe_iff _).mpr h)

/-- Doubles of full precision lie closer together than numbers of fifteen digits. -/
theorem two_zpow_lt_cell (hm : 2 ^ 52 ≤ m) (hbits : m < 2 ^ 53) (hgreatest : q ≤ greatestPower) :
    (2 : ℚ) ^ q < 10 ^ (leadingPlace m q - 14) := by
  have hlead := lt_ten_zpow_leadingPlace hbits hgreatest
  have hm' : (10 : ℚ) ^ (15 : ℤ) ≤ m := by
    exact_mod_cast (by decide : 10 ^ 15 ≤ 2 ^ 52).trans hm
  have hsplit : leadingPlace m q + 1 = 15 + (leadingPlace m q - 14) := by omega
  rw [hsplit, zpow_add₀ (by norm_num)] at hlead
  by_contra hle
  exact absurd hlead (not_lt.mpr
    (mul_le_mul hm' (not_lt.mp hle) (by positivity) (Nat.cast_nonneg m)))

theorem Captures.abs_sub_le (h : Captures m q v) : |v - m * 2 ^ q| ≤ 2 ^ q / 2 := by
  have hgap := mul_le_mul_of_nonneg_right (gapBelow_le m q) (two_zpow_pos q).le
  have hlow := h.low
  have hhigh := h.high
  rw [abs_le]
  constructor <;> linarith

/-- Of the points of the grid only one is captured. -/
theorem Captures.eq_of_onGrid (hm : 2 ^ 52 ≤ m) (hbits : m < 2 ^ 53) (hgreatest : q ≤ greatestPower)
    (hv : Captures m q v) (hw : Captures m q w) (hvgrid : OnGrid (leadingPlace m q - 14) v)
    (hwgrid : OnGrid (leadingPlace m q - 14) w) : v = w := by
  refine hvgrid.eq_of_near hwgrid (lt_of_le_of_lt ?_ (two_zpow_lt_cell hm hbits hgreatest))
  calc |v - w| = |(v - m * 2 ^ q) - (w - m * 2 ^ q)| := by rw [sub_sub_sub_cancel_right]
    _ ≤ |v - m * 2 ^ q| + |w - m * 2 ^ q| := abs_sub ..
    _ ≤ 2 ^ q / 2 + 2 ^ q / 2 := add_le_add hv.abs_sub_le hw.abs_sub_le
    _ = 2 ^ q := add_halves _

/-- The captured point is one of the two around the double. -/
theorem identifies_of_onGrid (hm : 0 < m) (hcell : (2 : ℚ) ^ q < 10 ^ g) (hv : Captures m q v)
    (hgrid : OnGrid g v) : identifies m q g (pointBelow m q g) = true ∨
      identifies m q g (pointBelow m q g + 1) = true := by
  obtain ⟨k, rfl⟩ := hgrid
  obtain ⟨hbelow, habove⟩ := pointBelow_spec m q g
  have hpos : (0 : ℚ) < 10 ^ g := zpow_pos (by norm_num) g
  have hnear := abs_le.mp hv.abs_sub_le
  have hpower := two_zpow_pos q
  have hlow : (pointBelow m q g : ℚ) - 1 < k := by
    by_contra hle
    have := mul_le_mul_of_nonneg_right (not_lt.mp hle) hpos.le
    linarith
  have hhigh : (k : ℚ) < pointBelow m q g + 2 := by
    by_contra hle
    have := mul_le_mul_of_nonneg_right (not_lt.mp hle) hpos.le
    push_cast at habove
    linarith
  have hlow' : pointBelow m q g < k + 1 := by
    exact_mod_cast sub_lt_iff_lt_add.mp hlow
  have hhigh' : k < pointBelow m q g + 2 := by exact_mod_cast hhigh
  rcases (by omega : k = pointBelow m q g ∨ k = pointBelow m q g + 1) with rfl | hk
  · exact Or.inl ((identifies_iff hm _).mpr hv)
  · exact Or.inr (hk ▸ (identifies_iff hm k).mpr hv)

/-- A captured number of the grid is what the double is written as. -/
theorem value_shortest_of_onGrid (tie : TieRule) (hm : 2 ^ 52 ≤ m) (hbits : m < 2 ^ 53)
    (hgreatest : q ≤ greatestPower) (hv : Captures m q v)
    (hgrid : OnGrid (leadingPlace m q - 14) v) : (shortest tie m q).value = v := by
  have hpos : 0 < m := lt_of_lt_of_le (by decide) hm
  have hcell := two_zpow_lt_cell hm hbits hgreatest
  have hpoint : (gridPoint? tie m q (leadingPlace m q - (14 : ℕ))).isSome = true :=
    isSome_gridPoint? (identifies_of_onGrid hpos hcell hv hgrid)
  obtain ⟨k, hk, p, hfound, hinside⟩ := exists_coarsestPoint?_of_isSome (by decide) hpoint
  rw [value_shortest hfound]
  refine Captures.eq_of_onGrid hm hbits hgreatest ((identifies_iff hpos p).mp hinside) hv
    (OnGrid.mono ⟨p, rfl⟩ ?_) hgrid
  omega

/-- The double that captures a number of fifteen digits begins at no higher place. -/
theorem leadingPlace_le {e : ℤ} (hm : 2 ^ 52 ≤ m) (hleast : leastPower ≤ q) (hv : Captures m q v)
    (hgrid : OnGrid (e - 15) v) (hlt : v < 10 ^ e) : leadingPlace m q ≤ e - 1 := by
  by_contra hplace
  have hpos : 0 < m := lt_of_lt_of_le (by decide) hm
  have hpower := two_zpow_pos q
  have hnear := abs_le.mp hv.abs_sub_le
  have hm' : (2 : ℚ) ^ 52 ≤ m := by exact_mod_cast hm
  have hten : (10 : ℚ) ^ e ≤ m * 2 ^ q :=
    (zpow_le_zpow_right₀ (by norm_num) (by omega)).trans (ten_zpow_leadingPlace_le hpos hleast)
  have hsplit : (10 : ℚ) ^ e = 10 ^ 15 * 10 ^ (e - 15) := by
    rw [← zpow_natCast, ← zpow_add₀ (by norm_num)]
    congr 1
    omega
  -- The power of ten is a point of the grid too, and so it is a whole cell away.
  have hcell : (10 : ℚ) ^ (e - 15) ≤ 10 ^ e - v := by
    by_contra hclose
    have hsame : v = 10 ^ e := hgrid.eq_of_near ⟨10 ^ 15, by push_cast; exact hsplit⟩ (by
      rw [abs_sub_comm, abs_of_pos (sub_pos.mpr hlt)]
      exact not_le.mp hclose)
    exact absurd hsame hlt.ne
  have hwide : (10 : ℚ) ^ (e - 15) ≤ 2 ^ q / 2 := by linarith
  have hlow : (m - 1 / 2) * 2 ^ q ≤ v := by linarith
  nlinarith

/-! ## Decimals of fifteen digits -/

theorem onGrid_magnitude {d : Decimal} (hlength : d.digits.length ≤ 15) :
    OnGrid (d.exponent - 15) d.magnitude := by
  refine OnGrid.mono (g := d.exponent - d.digits.length) ⟨Text.digitsValue d.digits, ?_⟩ (by omega)
  rw [Decimal.magnitude, Decimal.fraction_eq, zpow_sub₀ (by norm_num), zpow_natCast]
  ring

/-- A number of at most fifteen digits in the normal range is what some double is written as. -/
theorem exists_written (n : Layout) {d : Decimal} (hd : d.Normal) (hlength : d.digits.length ≤ 15)
    (h : d.value = 0 ∨ 10 ^ (-307 : ℤ) ≤ |d.value| ∧ |d.value| < 10 ^ (308 : ℤ)) :
    ∃ x : Binary64, x.isFinite = true ∧ x.Canonical ∧ x.written n = d.value := by
  rcases h with hzero | ⟨hlow, hhigh⟩
  · refine ⟨zero false, rfl, canonical_zero false, ?_⟩
    rw [hzero]
    exact mul_zero _
  · rw [d.abs_value] at hlow hhigh
    have hleast : (2 : ℚ) ^ (-1022 : ℤ) ≤ d.magnitude := by
      have hrange : (2 : ℚ) ^ (-1022 : ℤ) ≤ 10 ^ (-307 : ℤ) := by
        rw [zpow_neg, zpow_neg]
        exact inv_anti₀ (by positivity) (by exact_mod_cast ten_pow_308_le.2)
      exact hrange.trans hlow
    have hne : d.digits ≠ [] := by
      intro hnil
      rw [Decimal.magnitude, hnil, Decimal.fraction, zero_mul] at hlow
      exact absurd hlow (not_le.mpr (zpow_pos (by norm_num) _))
    obtain ⟨m, q, hm, hbits, hq, hq', hcaptures⟩ := exists_captures hleast hhigh
    have hgrid := onGrid_magnitude hlength
    have hplace := leadingPlace_le hm hq hcaptures hgrid (Decimal.magnitude_bounds hd hne).2
    have hvalue := value_shortest_of_onGrid n.tie hm hbits hq' hcaptures
      (hgrid.mono (by omega))
    refine ⟨finite d.negative m q, rfl, ⟨hbits, hq, hq', Or.inl hm⟩, ?_⟩
    have hne : m ≠ 0 := by omega
    rw [written, writtenMagnitude, if_neg hne, hvalue, Decimal.value_eq_mul]

end ItemStore.Binary64
