import ItemStore.Proofs.DecimalText

/-!
# The decimal text of an integer

An integer is written as its digits, after a minus sign where it is negative.  An interval reads
that text as the integer if it holds the integer, and not at all if it does not
(`IntRange.read_toString`).  Nothing but a sign and digits is read (`IntRange.read_eq_none`).
-/

namespace ItemStore.Text

open Decimal (Bare bare_of_isDigit readDigits_eq_some_iff)

theorem digitsValue_toDigits (n : ℕ) : digitsValue (Nat.toDigits 10 n) = n :=
  Nat.ofDigitChars_toDigits (by decide) (by decide)

theorem isDigit_toDigits (n : ℕ) : ∀ c ∈ Nat.toDigits 10 n, c.isDigit = true := fun _ hc =>
  Nat.isDigit_of_mem_toDigits (by decide) (by decide) hc

theorem readDigits_toDigits (n : ℕ) : readDigits (Nat.toDigits 10 n) = some n :=
  readDigits_eq_some_iff.mpr
    ⟨⟨Nat.toDigits_ne_nil, isDigit_toDigits n⟩, digitsValue_toDigits n⟩

theorem toString_ofNat (n : ℕ) :
    toString (Int.ofNat n) = String.ofList (Nat.toDigits 10 n) := by
  rw [← Nat.toList_repr, String.ofList_toList]
  rfl

theorem toList_toString_negSucc (n : ℕ) :
    (toString (Int.negSucc n)).toList = '-' :: Nat.toDigits 10 (n + 1) := by
  rw [← Nat.toList_repr]
  exact String.toList_append

/-- An integer is written with digits and a minus sign. -/
theorem mem_toString {i : ℤ} {c : Char} (h : c ∈ (toString i).toList) :
    c.isDigit = true ∨ c = '-' := by
  cases i with
  | ofNat n =>
      rw [toString_ofNat, String.toList_ofList] at h
      exact Or.inl (isDigit_toDigits n c h)
  | negSucc n =>
      rw [toList_toString_negSucc] at h
      rcases List.mem_cons.mp h with rfl | h
      · exact Or.inr rfl
      · exact Or.inl (isDigit_toDigits _ c h)

namespace IntRange

variable {r : IntRange} {cs : List Char} {c : Char}

theorem holds_signed_iff (i : ℤ) : (signed 64).holds i = true ↔ -2 ^ 63 ≤ i ∧ i < 2 ^ 63 :=
  Decimal.holds_exponentRange i

theorem holds_unsigned_iff (i : ℤ) : (unsigned 64).holds i = true ↔ 0 ≤ i ∧ i < 2 ^ 64 := by
  have hhigh : Int.ofNat (Nat.pow 2 64) = 2 ^ 64 := rfl
  simp only [unsigned, holds, Bool.and_eq_true, decide_eq_true_iff, hhigh]
  omega

theorem within_eq_some {i : ℤ} (h : r.holds i = true) : r.within i = some i := if_pos h

theorem within_eq_none {i : ℤ} (h : ¬ r.holds i = true) : r.within i = none := if_neg h

/-- Without a sign, the digits are the integer. -/
theorem read_of_bare (h : Bare cs) :
    r.read (String.ofList cs) = (readDigits cs).bind fun n => r.within n := by
  rw [read, String.toList_ofList]
  split
  next => exact absurd rfl (h '+' rfl).1
  next => exact absurd rfl (h '-' rfl).2
  next => rfl

theorem within_neg_eq_none (hlow : 0 ≤ r.low) {n : ℕ} (hn : 0 < n) : r.within (-n) = none := by
  have hout : ¬ r.low ≤ -(n : ℤ) := by omega
  exact within_eq_none (by simp [holds, hout])

/-- The text of an integer is read as it, where the interval holds it. -/
theorem read_toString (r : IntRange) (i : ℤ) : r.read (toString i) = r.within i := by
  cases i with
  | ofNat n =>
      rw [toString_ofNat, read_of_bare (bare_of_isDigit (isDigit_toDigits n)),
        readDigits_toDigits]
      rfl
  | negSucc n =>
      rw [read, toList_toString_negSucc]
      simp only [readDigits_toDigits, Option.bind_some]
      split
      next hlow => exact (within_neg_eq_none hlow n.succ_pos).symm
      next => rfl

/-- A text with a character that is neither a sign nor a digit is no integer. -/
theorem read_eq_none {text : String} (hc : c ∈ text.toList) (hplus : c ≠ '+') (hminus : c ≠ '-')
    (hdigit : c.isDigit = false) : r.read text = none := by
  have hread : ∀ ds, c ∈ ds → readDigits ds = none := by
    intro ds hds
    refine Option.eq_none_iff_forall_ne_some.mpr fun n hn => ?_
    rw [(readDigits_eq_some_iff.mp hn).1.2 c hds] at hdigit
    cases hdigit
  rw [read]
  split
  next ds htext =>
      rw [htext] at hc
      rw [hread ds ((List.mem_cons.mp hc).resolve_left hplus)]
      rfl
  next ds htext =>
      rw [htext] at hc
      rw [hread ds ((List.mem_cons.mp hc).resolve_left hminus)]
      exact ite_self _
  next =>
      rw [hread _ hc]
      rfl

end IntRange

end ItemStore.Text
