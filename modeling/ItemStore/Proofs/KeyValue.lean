import ItemStore.Table
import ItemStore.Proofs.Decimal

/-!
# What keys stand for

Keys are told apart in two ways: a partition is found by the canonical spelling of its value,
and inside a partition entries are told apart by `SortKey.compare`.  Both are equality of one
thing, the `KeyValue` that a key stands for, in which a text counts as the number that is read:

* `SortKey.compare a b = .eq ↔ a.value = b.value`, for all keys (`compare_eq_iff`);
* `Table.partitionOf a.toValue = Table.partitionOf b.toValue ↔ a.value = b.value`, for keys whose
  number texts are numbers (`partitionOf_eq_iff`).

On those keys `SortKey.compare` is the order `KeyValue.compare` of the key values
(`compare_eq_compare_value`), which is a total order.  On other texts it is not one, so
everything about the order of items assumes that number texts are numbers.
-/

namespace ItemStore

/-- What a key stands for. -/
inductive KeyValue where
  | absent
  | string (s : String)
  | number (q : ℚ)
  /-- A text of the number type that is no number. -/
  | unread (text : String)
  | binary (bytes : List UInt8)
deriving DecidableEq

namespace KeyValue

/-- Values of different types are ordered by type. -/
def rank : KeyValue → Nat
  | absent => 0
  | string _ => 1
  | number _ => 2
  | unread _ => 3
  | binary _ => 4

/-- The text of a value that has one. -/
def text : KeyValue → String
  | string s => s
  | unread t => t
  | _ => ""

/-- The number of a value that has one. -/
def amount : KeyValue → ℚ
  | number q => q
  | _ => 0

/-- The bytes of a value that has some. -/
def bytes : KeyValue → List UInt8
  | binary b => b
  | _ => []

/-- The order of two values: by type, then strings and binary data by bytes and numbers by
size. -/
def compare : KeyValue → KeyValue → Ordering :=
  compareLex (compareOn rank)
    (compareLex (compareOn text) (compareLex (compareOn amount) (compareOn bytes)))

instance : Std.TransCmp compare :=
  inferInstanceAs (Std.TransCmp (compareLex _ (compareLex _ (compareLex _ _))))

theorem compare_eq_then (a b : KeyValue) :
    compare a b = (Ord.compare a.rank b.rank).then ((Ord.compare a.text b.text).then
      ((Ord.compare a.amount b.amount).then (Ord.compare a.bytes b.bytes))) := rfl

theorem eq_of_compare {a b : KeyValue} (h : compare a b = .eq) : a = b := by
  rw [compare_eq_then] at h
  simp only [Ordering.then_eq_eq, compare_eq_iff_eq] at h
  obtain ⟨hr, ht, hq, hb⟩ := h
  cases a <;> cases b <;> simp_all [rank, text, amount, bytes]

instance : Std.LawfulEqCmp compare where
  eq_of_compare := eq_of_compare

end KeyValue

namespace SortKey

/-- What the key stands for. -/
def value : SortKey → KeyValue
  | absent => .absent
  | string s => .string s
  | number text =>
      match Decimal.ofText text with
      | some d => .number d.value
      | none => .unread text
  | binary b => .binary b

/-- Whether the text of a number key is a number. -/
def numeric : SortKey → Bool
  | number text => Decimal.isNumber text
  | _ => true

theorem compare_number_number {s t : String} (hs : Decimal.isNumber s = true)
    (ht : Decimal.isNumber t = true) :
    (number s).compare (number t) = (number s).value.compare (number t).value := by
  obtain ⟨c, hc, hcn⟩ := Decimal.exists_normal_of_isNumber hs
  obtain ⟨d, hd, hdn⟩ := Decimal.exists_normal_of_isNumber ht
  have hcd := Decimal.compare_eq_compare_value hcn hdn
  simp [compare, Decimal.compareTexts, value, hc, hd, hcd, KeyValue.compare_eq_then,
    KeyValue.rank, KeyValue.text, KeyValue.amount, KeyValue.bytes]

/-- Texts of which one is no number are ordered as texts. -/
theorem compare_number_of_not {s t : String}
    (h : ¬ (Decimal.isNumber s = true ∧ Decimal.isNumber t = true)) :
    (number s).compare (number t) = Ord.compare s t := by
  have hnone : Decimal.compareTexts s t = none := by
    rw [Decimal.compareTexts]
    cases hs : Decimal.ofText s with
    | none => rfl
    | some c =>
        cases ht : Decimal.ofText t with
        | none => rfl
        | some d => exact absurd ⟨by simp [Decimal.isNumber, hs], by simp [Decimal.isNumber, ht]⟩ h
  rw [compare, hnone, Option.getD_none]

/-- Keys whose number texts are numbers are ordered as what they stand for. -/
theorem compare_eq_compare_value {a b : SortKey} (ha : a.numeric = true) (hb : b.numeric = true) :
    a.compare b = a.value.compare b.value := by
  cases a with
  | number s =>
      obtain ⟨c, hc, -⟩ := Decimal.exists_normal_of_isNumber ha
      cases b with
      | number t => exact compare_number_number ha hb
      | absent | string t | binary t =>
          simp [compare, rank, value, hc, KeyValue.compare_eq_then, KeyValue.rank,
            Nat.compare_eq_lt.mpr, Nat.compare_eq_gt.mpr]
  | absent | string s | binary s =>
      cases b with
      | number t =>
          obtain ⟨d, hd, -⟩ := Decimal.exists_normal_of_isNumber hb
          simp [compare, rank, value, hd, KeyValue.compare_eq_then, KeyValue.rank,
            Nat.compare_eq_lt.mpr, Nat.compare_eq_gt.mpr]
      | absent | string t | binary t =>
          simp [compare, rank, value, KeyValue.compare_eq_then, KeyValue.rank, KeyValue.text,
            KeyValue.amount, KeyValue.bytes, Nat.compare_eq_lt.mpr, Nat.compare_eq_gt.mpr]

/-- The order of two keys is the same seen from the other side. -/
theorem compare_swap (j k : SortKey) : (j.compare k).swap = k.compare j := by
  cases j with
  | number s =>
      cases k with
      | number t =>
          by_cases h : Decimal.isNumber s = true ∧ Decimal.isNumber t = true
          · rw [compare_number_number h.1 h.2, compare_number_number h.2 h.1]
            exact Std.OrientedCmp.eq_swap.symm
          · rw [compare_number_of_not h, compare_number_of_not (mt And.symm h)]
            exact Std.OrientedOrd.eq_swap.symm
      | absent | string t | binary t => exact Std.OrientedOrd.eq_swap.symm
  | absent | string s | binary s =>
      cases k <;> exact Std.OrientedOrd.eq_swap.symm

/-- Two number texts are the same key exactly if they are equal in value, or as texts where one of
them is no number. -/
theorem value_number_eq_iff (s t : String) :
    (number s).value = (number t).value ↔ (number s).compare (number t) = .eq := by
  cases hs : Decimal.isNumber s with
  | true =>
      obtain ⟨c, hc, hcn⟩ := Decimal.exists_normal_of_isNumber hs
      cases ht : Decimal.isNumber t with
      | true =>
          rw [compare_number_number hs ht]
          exact Std.LawfulEqCmp.compare_eq_iff_eq.symm
      | false =>
          have hd : Decimal.ofText t = none := by simpa [Decimal.isNumber] using ht
          have hst : s ≠ t := by
            rintro rfl
            rw [hs] at ht
            cases ht
          simp [compare, Decimal.compareTexts, value, hc, hd, hst]
  | false =>
      have hc : Decimal.ofText s = none := by simpa [Decimal.isNumber] using hs
      cases hd : Decimal.ofText t with
      | none => simp [compare, Decimal.compareTexts, value, hc, hd]
      | some d =>
          have hst : s ≠ t := by
            rintro rfl
            rw [hc] at hd
            cases hd
          simp [compare, Decimal.compareTexts, value, hc, hd, hst]

/-- Keys compare equal exactly if they stand for one thing. -/
theorem compare_eq_iff (a b : SortKey) : a.compare b = .eq ↔ a.value = b.value := by
  cases a with
  | number s =>
      cases b with
      | number t => exact (value_number_eq_iff s t).symm
      | absent | string t | binary t =>
          simp only [compare, rank, value]
          split <;> simp
  | absent | string s | binary s =>
      cases b with
      | number t =>
          simp only [compare, rank, value]
          split <;> simp
      | absent | string t | binary t => simp [compare, rank, value]

theorem same_iff (a b : SortKey) : a.same b = true ↔ a.value = b.value := by
  rw [same, beq_iff_eq, compare_eq_iff]

/-- Only numbers have several spellings. -/
theorem eq_or_number_of_value_eq {a b : SortKey} (h : a.value = b.value) :
    a = b ∨ ∃ s t, a = number s ∧ b = number t := by
  cases a with
  | number s =>
      cases b with
      | number t => exact Or.inr ⟨s, t, rfl, rfl⟩
      | absent | string t | binary t =>
          simp only [value] at h
          split at h <;> cases h
  | absent | string s | binary s =>
      cases b with
      | number t =>
          simp only [value] at h
          split at h <;> cases h
      | absent | string t | binary t => simp_all [value]

theorem numeric_eq_of_value_eq {a b : SortKey} (h : a.value = b.value) :
    a.numeric = b.numeric := by
  rcases eq_or_number_of_value_eq h with rfl | ⟨s, t, rfl, rfl⟩
  · rfl
  · cases hs : Decimal.ofText s <;> cases ht : Decimal.ofText t <;>
      simp_all [value, numeric, Decimal.isNumber]

end SortKey

namespace SortCondition

/-- The keys that a condition mentions. -/
def operands : SortCondition → List SortKey
  | eq k | lt k | le k | gt k | ge k | beginsWith k => [k]
  | between low high => [low, high]

/-- A condition whose number texts are numbers does not look at the spelling of a key. -/
theorem holds_congr {c : SortCondition} (hc : ∀ k ∈ c.operands, k.numeric = true)
    {a b : SortKey} (ha : a.numeric = true) (h : a.value = b.value) : c.holds a = c.holds b := by
  have hb : b.numeric = true := SortKey.numeric_eq_of_value_eq h ▸ ha
  have hcmp : ∀ k ∈ c.operands, a.compare k = b.compare k := by
    intro k hk
    rw [SortKey.compare_eq_compare_value ha (hc k hk),
      SortKey.compare_eq_compare_value hb (hc k hk), h]
  cases c with
  | eq k | lt k | le k | gt k | ge k => simp only [holds, hcmp k List.mem_cons_self]
  | between low high =>
      simp only [holds, hcmp low List.mem_cons_self,
        hcmp high (List.mem_cons_of_mem _ List.mem_cons_self)]
  | beginsWith k =>
      rcases SortKey.eq_or_number_of_value_eq h with rfl | ⟨s, t, rfl, rfl⟩
      · rfl
      · cases k <;> rfl

end SortCondition

namespace Table

theorem canonical_eq_iff {s t : String} (hs : Decimal.isNumber s = true)
    (ht : Decimal.isNumber t = true) :
    Decimal.canonical s = Decimal.canonical t ↔
      (SortKey.number s).value = (SortKey.number t).value := by
  obtain ⟨c, hc, hcn⟩ := Decimal.exists_normal_of_isNumber hs
  obtain ⟨d, hd, hdn⟩ := Decimal.exists_normal_of_isNumber ht
  simp only [Decimal.canonical, SortKey.value, hc, hd, KeyValue.number.injEq,
    Decimal.toText_inj hcn hdn, Decimal.value_inj hcn hdn]

/-- One partition holds exactly the keys that stand for one thing. -/
theorem partitionOf_eq_iff {a b : SortKey} (ha : a.numeric = true) (hb : b.numeric = true) :
    partitionOf a.toValue = partitionOf b.toValue ↔ a.value = b.value := by
  constructor
  · intro h
    cases a with
    | number s =>
        cases b with
        | number t =>
            simp only [SortKey.toValue, partitionOf, Value.number.injEq] at h
            exact (canonical_eq_iff ha hb).mp h
        | absent | string t | binary t => simp [SortKey.toValue, partitionOf] at h
    | absent | string s | binary s =>
        cases b <;> simp_all [SortKey.toValue, partitionOf]
  · intro h
    rcases SortKey.eq_or_number_of_value_eq h with rfl | ⟨s, t, rfl, rfl⟩
    · rfl
    · simp only [SortKey.toValue, partitionOf, (canonical_eq_iff ha hb).mpr h]

end Table

end ItemStore
