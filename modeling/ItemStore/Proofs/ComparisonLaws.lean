import ItemStore.Condition.Evaluation
import ItemStore.Proofs.ItemKey

/-!
# Laws of the comparisons

Keys are ordered in order to be found again, and values are compared in conditions.  Number texts
that are numbers are compared by value, in both cases.  Other texts of the number type are ordered
as texts, as keys, and that does not go together with the values of numbers: "1a" comes after "10"
and before "9".  Such a key is `Astray` between the two.  Some keys of one attribute are totally
ordered exactly if none of them is astray between two others (`KeyAttribute.compare_lawful`).

Conditions do not order texts that are no numbers, and so the comparison of values has no such gap.
What it looks at is the `Value.sense` of a value: strings, binary data and numbers count as what
they stand for, and every other value as it is written (`Value.order?_eq_some_iff`,
`Value.test_eq_iff`).  Its laws are those of the order of `KeyValue`.
-/

namespace ItemStore

/-! ## The order of keys -/

namespace SortKey

theorem compare_self (k : SortKey) : k.compare k = .eq := (compare_eq_iff k k).mpr rfl

/-- Keys whose number texts are numbers are transitively ordered. -/
theorem compare_trans_of_numeric {x y z : SortKey} (hx : x.numeric = true) (hy : y.numeric = true)
    (hz : z.numeric = true) (hxy : (x.compare y).isLE = true) (hyz : (y.compare z).isLE = true) :
    (x.compare z).isLE = true := by
  rw [compare_eq_compare_value hx hy] at hxy
  rw [compare_eq_compare_value hy hz] at hyz
  rw [compare_eq_compare_value hx hz]
  exact Std.TransCmp.isLE_trans hxy hyz

/-- The text of `k` is no number and lies between the texts of two numbers `p` and `q`, the second
of which is not the greater number. -/
def Astray (k p q : SortKey) : Prop :=
  ∃ r s t, k = number r ∧ p = number s ∧ q = number t ∧
    Decimal.isNumber r = false ∧ Decimal.isNumber s = true ∧ Decimal.isNumber t = true ∧
    Ord.compare s r = .lt ∧ Ord.compare r t = .lt ∧ (q.compare p).isLE = true

/-- A number and a text that is none are two texts, so that neither comes before the other by being
equal to it. -/
theorem text_lt_of_isLE {s t : String} (h : Decimal.isNumber s ≠ Decimal.isNumber t)
    (hle : ((number s).compare (number t)).isLE = true) : Ord.compare s t = .lt := by
  have hnot : ¬ (Decimal.isNumber s = true ∧ Decimal.isNumber t = true) := by
    rintro ⟨hs, ht⟩
    exact h (hs.trans ht.symm)
  rw [compare_number_of_not hnot] at hle
  refine Ordering.isLE_iff_eq_lt_or_eq_eq.mp hle |>.resolve_right fun heq => h ?_
  rw [Std.LawfulEqOrd.eq_of_compare heq]

/-- A circle of two numbers and a text that is none. -/
theorem astray_of_circle {r s t : String} (hr : Decimal.isNumber r = false)
    (hs : Decimal.isNumber s = true) (ht : Decimal.isNumber t = true)
    (hsr : ((number s).compare (number r)).isLE = true)
    (hrt : ((number r).compare (number t)).isLE = true)
    (hts : ((number t).compare (number s)).isLE = true) :
    (number r).Astray (number s) (number t) :=
  ⟨r, s, t, rfl, rfl, rfl, hr, hs, ht, text_lt_of_isLE (by simp [hr, hs]) hsr,
    text_lt_of_isLE (by simp [hr, ht]) hrt, hts⟩

/-- The second number is not after the first, nor the first after the key, but the second number is
after the key. -/
theorem Astray.not_trans {k p q : SortKey} (h : k.Astray p q) :
    (q.compare p).isLE = true ∧ (p.compare k).isLE = true ∧ (q.compare k).isLE = false := by
  obtain ⟨r, s, t, rfl, rfl, rfl, hr, -, -, hsr, hrt, hts⟩ := h
  refine ⟨hts, ?_, ?_⟩
  · rw [compare_number_of_not (by simp [hr]), hsr]
    rfl
  · rw [compare_number_of_not (by simp [hr]), Std.OrientedOrd.eq_swap, hrt]
    rfl

/-- Texts are transitively ordered unless one of them is astray between the others. -/
theorem compare_number_trans {r s t : String}
    (hr : ¬ (number r).Astray (number t) (number s))
    (hs : ¬ (number s).Astray (number r) (number t))
    (ht : ¬ (number t).Astray (number s) (number r))
    (hrs : ((number r).compare (number s)).isLE = true)
    (hst : ((number s).compare (number t)).isLE = true) :
    ((number r).compare (number t)).isLE = true := by
  by_contra hrt
  have htr : ((number t).compare (number r)).isLE = true := by
    rw [← compare_swap]
    cases h : (number r).compare (number t) <;> simp_all
  -- Which of the three are numbers decides which of the comparisons are between numbers.
  cases hnr : Decimal.isNumber r <;> cases hns : Decimal.isNumber s <;>
    cases hnt : Decimal.isNumber t
  case false.true.true => exact hr (astray_of_circle hnr hnt hns htr hrs hst)
  case true.false.true => exact hs (astray_of_circle hns hnr hnt hrs hst htr)
  case true.true.false => exact ht (astray_of_circle hnt hns hnr hst htr hrs)
  case true.true.true =>
    exact hrt (compare_trans_of_numeric (x := number r) (y := number s) hnr hns hnt hrs hst)
  all_goals
    rw [compare_number_of_not (by simp [hnr, hns, hnt])] at hrs hst hrt
    exact hrt (Std.TransOrd.isLE_trans hrs hst)

end SortKey

namespace KeyAttribute

variable {a : KeyAttribute} {v : Value} {x : SortKey}

theorem exists_number_of_check (htype : a.type = .number) (h : a.check v = .ok x) :
    ∃ s, x = .number s := by
  obtain ⟨hkind, rfl⟩ := check_eq_ok_iff.mp h
  rw [htype] at hkind
  cases v <;> cases hkind
  exact ⟨_, rfl⟩

theorem numeric_of_check (htype : a.type ≠ .number) (h : a.check v = .ok x) :
    x.numeric = true := by
  obtain ⟨hkind, rfl⟩ := check_eq_ok_iff.mp h
  cases v with
  | number s => cases ha : a.type <;> simp_all [Value.kind, ScalarType.kind]
  | _ => rfl

/-- Keys of one attribute compare the same from either side, and equality of keys is an
equivalence.  Some of them are transitively ordered exactly if none of them is a text that lies
astray between two numbers. -/
theorem compare_lawful (a : KeyAttribute) {keys : Set SortKey}
    (hkeys : ∀ x ∈ keys, ∃ v, a.check v = .ok x) :
    (∀ x ∈ keys, x.compare x = .eq) ∧
    (∀ x ∈ keys, ∀ y ∈ keys, y.compare x = (x.compare y).swap) ∧
    (∀ x ∈ keys, ∀ y ∈ keys, ∀ z ∈ keys,
      x.compare y = .eq → y.compare z = .eq → x.compare z = .eq) ∧
    ((∀ x ∈ keys, ∀ y ∈ keys, ∀ z ∈ keys, (x.compare y).isLE = true →
        (y.compare z).isLE = true → (x.compare z).isLE = true) ↔
      ∀ k ∈ keys, ∀ p ∈ keys, ∀ q ∈ keys, ¬ k.Astray p q) := by
  refine ⟨fun x _ => x.compare_self, fun x _ y _ => (x.compare_swap y).symm, ?equal, ?notAstray,
    ?trans⟩
  case equal =>
    intro x _ y _ z _ hxy hyz
    rw [SortKey.compare_eq_iff] at hxy hyz ⊢
    exact hxy.trans hyz
  case notAstray =>
    intro htrans k hk p hp q hq h
    obtain ⟨hqp, hpk, hqk⟩ := h.not_trans
    rw [htrans q hq p hp k hk hqp hpk] at hqk
    cases hqk
  case trans =>
    intro hstray x hx y hy z hz hxy hyz
    obtain ⟨u, hu⟩ := hkeys x hx
    obtain ⟨v, hv⟩ := hkeys y hy
    obtain ⟨w, hw⟩ := hkeys z hz
    by_cases htype : a.type = .number
    · obtain ⟨r, rfl⟩ := exists_number_of_check htype hu
      obtain ⟨s, rfl⟩ := exists_number_of_check htype hv
      obtain ⟨t, rfl⟩ := exists_number_of_check htype hw
      exact SortKey.compare_number_trans (hstray _ hx _ hz _ hy) (hstray _ hy _ hx _ hz)
        (hstray _ hz _ hy _ hx) hxy hyz
    · exact SortKey.compare_trans_of_numeric (numeric_of_check htype hu)
        (numeric_of_check htype hv) (numeric_of_check htype hw) hxy hyz

/-- A text that comes after all digits does not get between numbers. -/
theorem compare_lawful_letter :
    (∀ x ∈ ({.number "9", .number "10", .number "x"} : Set SortKey),
      ∃ v, (⟨"at", .number⟩ : KeyAttribute).check v = .ok x) ∧
    ∀ x ∈ ({.number "9", .number "10", .number "x"} : Set SortKey),
      ((SortKey.number "9").compare (.number "10")).isLE = true →
        ((SortKey.number "10").compare x).isLE = true →
          ((SortKey.number "9").compare x).isLE = true := by
  have hkeys : ∀ x ∈ ({.number "9", .number "10", .number "x"} : Set SortKey),
      ∃ v, (⟨"at", .number⟩ : KeyAttribute).check v = .ok x := by
    intro x hx
    refine ⟨x.toValue, ?_⟩
    rcases hx with rfl | rfl | rfl <;> rfl
  refine ⟨hkeys, ?_⟩
  obtain ⟨-, -, -, htrans⟩ := compare_lawful ⟨"at", .number⟩ hkeys
  intro x hx
  refine htrans.mpr ?_ _ (Or.inl rfl) _ (Or.inr (Or.inl rfl)) x hx
  rintro k (rfl | rfl | rfl) p hp q (rfl | rfl | rfl) ⟨r, s, t, hr, rfl, ht, hrn, -, htn, -, hrt, -⟩
  all_goals
    cases hr
    cases ht
    revert hrn htn hrt
    decide

/-- The keys that a number attribute admits are not totally ordered: "9" comes before "10" as a
number, "10" before "1a" as a text, and "1a" before "9" as a text. -/
theorem compare_not_transitive :
    ¬ ∀ (a : KeyAttribute) (u v w : Value) (x y z : SortKey),
      a.check u = .ok x → a.check v = .ok y → a.check w = .ok z →
      (x.compare y).isLE = true → (y.compare z).isLE = true → (x.compare z).isLE = true := by
  intro h
  have hle := h ⟨"at", .number⟩ (.number "9") (.number "10") (.number "1a") _ _ _ rfl rfl rfl
    (by decide) (by decide)
  revert hle
  decide

-- The search for "10" ends at "1a", which has been put before "9".
example : OrderedMap.find? SortKey.compare (.number "10")
    (OrderedMap.insert SortKey.compare (.number "1a") 'c'
      (OrderedMap.insert SortKey.compare (.number "10") 'b'
        (OrderedMap.insert SortKey.compare (.number "9") 'a' []))) = none := by decide

end KeyAttribute

/-! ## The comparison of values -/

namespace Value

/-- What a value counts as in a comparison. -/
inductive Sense where
  /-- A string, binary data, or the value of a number. -/
  | ordered (k : KeyValue)
  /-- Any other value, as it is written. -/
  | written (v : Value)

/-- What the value counts as. -/
def sense : Value → Sense
  | string s => .ordered (.string s)
  | number text =>
      match Decimal.ofText text with
      | some d => .ordered (.number d.value)
      | none => .written (number text)
  | binary b => .ordered (.binary b)
  | v => .written v

variable {u v w x y z : Value} {o : Ordering} {op : Comparator} {p q : KeyValue}

theorem eq_of_sense_written (h : v.sense = .written u) : v = u := by
  cases v with
  | number text =>
      rw [sense] at h
      split at h <;> cases h
      rfl
  | _ => cases h <;> rfl

/-- Strings, binary data and numbers are ordered as what they stand for. -/
theorem sense_eq_ordered_iff :
    v.sense = .ordered p ↔
      (∃ s, v = string s ∧ p = .string s) ∨
      (∃ text d, v = number text ∧ Decimal.ofText text = some d ∧ p = .number d.value) ∨
      ∃ b, v = binary b ∧ p = .binary b := by
  cases v with
  | number text => cases h : Decimal.ofText text <;> simp [sense, h, eq_comm]
  | _ => simp [sense, eq_comm]

/-- Only values that count as ordered have an order. -/
theorem exists_ordered_of_order? (h : order? v w = some o) :
    ∃ p q, v.sense = .ordered p ∧ w.sense = .ordered q := by
  unfold order? at h
  split at h
  next s t => exact ⟨_, _, rfl, rfl⟩
  next s t =>
    obtain ⟨c, hc, hct⟩ := Option.bind_eq_some_iff.mp h
    obtain ⟨d, hd, -⟩ := Option.bind_eq_some_iff.mp hct
    exact ⟨.number c.value, .number d.value, by simp [sense, hc], by simp [sense, hd]⟩
  next s t => exact ⟨_, _, rfl, rfl⟩
  next => cases h

/-- Two values have an order if they count as values of one type, and then it is the order of what
they stand for. -/
theorem order?_of_ordered (hv : v.sense = .ordered p) (hw : w.sense = .ordered q) :
    order? v w = if p.rank = q.rank then some (p.compare q) else none := by
  rcases sense_eq_ordered_iff.mp hv with ⟨s, rfl, rfl⟩ | ⟨s, c, rfl, hc, rfl⟩ | ⟨s, rfl, rfl⟩ <;>
    rcases sense_eq_ordered_iff.mp hw with ⟨t, rfl, rfl⟩ | ⟨t, d, rfl, hd, rfl⟩ | ⟨t, rfl, rfl⟩
  case inr.inl.inr.inl =>
    have hcd := Decimal.compare_eq_compare_value (Decimal.normal_of_ofText hc)
      (Decimal.normal_of_ofText hd)
    simp [order?, Decimal.compareTexts, hc, hd, hcd, KeyValue.compare_eq_then, KeyValue.rank,
      KeyValue.text, KeyValue.amount, KeyValue.bytes]
  all_goals
    simp [order?, KeyValue.compare_eq_then, KeyValue.rank, KeyValue.text, KeyValue.amount,
      KeyValue.bytes]

theorem order?_eq_some_iff :
    order? v w = some o ↔
      ∃ p q, v.sense = .ordered p ∧ w.sense = .ordered q ∧ p.rank = q.rank ∧ p.compare q = o := by
  constructor
  · intro h
    obtain ⟨p, q, hv, hw⟩ := exists_ordered_of_order? h
    rw [order?_of_ordered hv hw] at h
    split at h
    next hrank => exact ⟨p, q, hv, hw, hrank, Option.some.inj h⟩
    next => cases h
  · rintro ⟨p, q, hv, hw, hrank, rfl⟩
    rw [order?_of_ordered hv hw, if_pos hrank]

/-- The order of two values is the same seen from the other side. -/
theorem order?_swap (v w : Value) : order? w v = (order? v w).map Ordering.swap := by
  cases h : order? v w with
  | some o =>
      obtain ⟨p, q, hv, hw, hrank, rfl⟩ := order?_eq_some_iff.mp h
      exact order?_eq_some_iff.mpr ⟨q, p, hw, hv, hrank.symm, Std.OrientedCmp.eq_swap⟩
  | none =>
      refine Option.eq_none_iff_forall_ne_some.mpr fun o' h' => ?_
      obtain ⟨q, p, hw, hv, hrank, -⟩ := order?_eq_some_iff.mp h'
      rw [order?_eq_some_iff.mpr ⟨p, q, hv, hw, hrank.symm, rfl⟩] at h
      cases h

/-- A comparison holds of a pair just as its mirror image holds of the pair turned around. -/
theorem test_flipped (op : Comparator) (v w : Value) : test op v w = test op.flipped w v := by
  unfold test
  rw [order?_swap v w]
  cases order? v w with
  | some o => exact (op.holds_flipped_swap o).symm
  | none => cases op <;> simp [Comparator.flipped, eq_comm]

/-- Values are equal if they count as the same. -/
theorem test_eq_iff : test .eq v w = true ↔ v.sense = w.sense := by
  cases h : order? v w with
  | some o =>
      obtain ⟨p, q, hv, hw, -, rfl⟩ := order?_eq_some_iff.mp h
      simp [test, h, hv, hw, Comparator.holds, Std.LawfulEqCmp.compare_eq_iff_eq]
  | none =>
      simp only [test, h, decide_eq_true_eq]
      refine ⟨congrArg sense, fun heq => ?_⟩
      cases hv : v.sense with
      | written u =>
          exact (eq_of_sense_written hv).trans (eq_of_sense_written (heq.symm.trans hv)).symm
      | ordered p =>
          rw [order?_of_ordered hv (heq.symm.trans hv), if_pos rfl] at h
          cases h

theorem test_ne_eq_not (v w : Value) : test .ne v w = !test .eq v w := by
  unfold test
  cases order? v w with
  | some o => cases o <;> rfl
  | none => simp

/-- Only values that have an order are less or greater. -/
theorem test_ordering_iff (heq : op ≠ .eq) (hne : op ≠ .ne) :
    test op v w = true ↔ ∃ o, order? v w = some o ∧ op.holds o = true := by
  unfold test
  cases order? v w with
  | some o => simp
  | none => cases op <;> simp_all

theorem test_lt_iff :
    test .lt v w = true ↔
      ∃ p q, v.sense = .ordered p ∧ w.sense = .ordered q ∧ p.rank = q.rank ∧
        p.compare q = .lt := by
  rw [test_ordering_iff (by decide) (by decide), ← order?_eq_some_iff]
  simp [Comparator.holds]

theorem test_lt_irrefl (v : Value) : test .lt v v = false := by
  rw [← Bool.not_eq_true, test_lt_iff]
  rintro ⟨p, q, hp, hq, -, hlt⟩
  rw [hp] at hq
  cases hq
  have hself : p.compare p = .eq := Std.ReflCmp.compare_self
  rw [hself] at hlt
  cases hlt

theorem test_lt_trans (hxy : test .lt x y = true) (hyz : test .lt y z = true) :
    test .lt x z = true := by
  obtain ⟨p, q, hx, hy, hpq, hlt⟩ := test_lt_iff.mp hxy
  obtain ⟨q', r, hy', hz, hqr, hlt'⟩ := test_lt_iff.mp hyz
  rw [hy] at hy'
  cases hy'
  exact test_lt_iff.mpr ⟨p, r, hx, hz, hpq.trans hqr, Std.TransCmp.lt_trans hlt hlt'⟩

/-- Equal values are less than the same values. -/
theorem test_congr (h : test .eq x y = true) : test .lt x z = test .lt y z := by
  rw [Bool.eq_iff_iff, test_lt_iff, test_lt_iff, test_eq_iff.mp h]

/-- On values that have an order, "less or equal" is what it says. -/
theorem test_le_of_order? (h : order? v w = some o) :
    test .le v w = (test .lt v w || test .eq v w) := by
  simp only [test, h]
  cases o <;> rfl

/-- Values that have an order are of one type, and it is a type of keys. -/
theorem kind_of_order? (h : order? v w = some o) :
    v.kind = w.kind ∧ ∃ type : ScalarType, v.kind = type.kind := by
  unfold order? at h
  split at h
  next => exact ⟨rfl, .string, rfl⟩
  next => exact ⟨rfl, .number, rfl⟩
  next => exact ⟨rfl, .binary, rfl⟩
  next => cases h

/-- Numbers have an order. -/
theorem exists_order?_number {s t : String} (hs : Decimal.isNumber s = true)
    (ht : Decimal.isNumber t = true) : ∃ o, order? (number s) (number t) = some o := by
  obtain ⟨c, hc⟩ := Option.isSome_iff_exists.mp hs
  obtain ⟨d, hd⟩ := Option.isSome_iff_exists.mp ht
  exact ⟨c.compare d, by simp [order?, Decimal.compareTexts, hc, hd]⟩

/-- The laws of the comparison of values, whatever their types: it does not depend on the side from
which it is seen; equality is an equivalence, and inequality its negation; "less" is a strict order
that goes together with equality; "less or equal" is what it says on strings, on binary data and on
numbers; and values that are not of one key type are not ordered at all. -/
theorem test_lawful (x y z : Value) :
    (∀ op, test op x y = test op.flipped y x) ∧
    (test .eq x x = true ∧
      (test .eq x y = true → test .eq y x = true) ∧
      (test .eq x y = true → test .eq y z = true → test .eq x z = true)) ∧
    test .ne x y = (!test .eq x y) ∧
    (test .lt x x = false ∧
      (test .lt x y = true → test .lt y z = true → test .lt x z = true)) ∧
    ¬ (test .lt x y = true ∧ test .eq x y = true) ∧
    (test .eq x y = true → test .lt y z = true → test .lt x z = true) ∧
    ((∀ s t, test .le (string s) (string t) =
        (test .lt (string s) (string t) || test .eq (string s) (string t))) ∧
      (∀ b c, test .le (binary b) (binary c) =
        (test .lt (binary b) (binary c) || test .eq (binary b) (binary c))) ∧
      (∀ s t, Decimal.isNumber s = true → Decimal.isNumber t = true →
        test .le (number s) (number t) =
          (test .lt (number s) (number t) || test .eq (number s) (number t)))) ∧
    (∀ op, op ≠ .eq → op ≠ .ne →
      (x.kind ≠ y.kind ∨ ¬ ∃ type : ScalarType, x.kind = type.kind) → test op x y = false) := by
  refine ⟨fun op => test_flipped op x y, ⟨?refl, ?symm, ?trans⟩, test_ne_eq_not x y,
    ⟨test_lt_irrefl x, test_lt_trans⟩, ?exclusive, ?congr, ⟨?strings, ?binaries, ?numbers⟩, ?other⟩
  case refl => exact test_eq_iff.mpr rfl
  case symm =>
    intro h
    exact test_eq_iff.mpr (test_eq_iff.mp h).symm
  case trans =>
    intro hxy hyz
    exact test_eq_iff.mpr ((test_eq_iff.mp hxy).trans (test_eq_iff.mp hyz))
  case exclusive =>
    rintro ⟨hlt, heq⟩
    rw [test_congr heq, test_lt_irrefl] at hlt
    cases hlt
  case congr =>
    intro heq hlt
    rwa [test_congr heq]
  case strings => exact fun s t => test_le_of_order? rfl
  case binaries => exact fun b c => test_le_of_order? rfl
  case numbers =>
    intro s t hs ht
    obtain ⟨o, ho⟩ := exists_order?_number hs ht
    exact test_le_of_order? ho
  case other =>
    intro op heq hne hkind
    rw [← Bool.not_eq_true, test_ordering_iff heq hne]
    rintro ⟨o, ho, -⟩
    obtain ⟨hsame, htype⟩ := kind_of_order? ho
    rcases hkind with h | h
    · exact h hsame
    · exact h htype

/-- Two spellings of one number are equal and come before the same numbers. -/
theorem test_lawful_tens :
    test .eq (number "10") (number "1e1") = true ∧ test .lt (number "1e1") (number "11") = true ∧
      test .lt (number "10") (number "11") = true := by
  have heq : test .eq (number "10") (number "1e1") = true := by decide
  have hlt : test .lt (number "1e1") (number "11") = true := by decide
  obtain ⟨-, -, -, -, -, hcongr, -⟩ := test_lawful (number "10") (number "1e1") (number "11")
  exact ⟨heq, hlt, hcongr heq hlt⟩

end Value

end ItemStore
