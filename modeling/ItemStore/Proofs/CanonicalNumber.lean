import ItemStore.Proofs.IntegerText

/-!
# The canonical spelling of a number

`Decimal.canonical` writes each number in one way, and two numbers in two ways, so it can stand for
the value of a text (`canonical_identifies`).  The canonical spelling `0.digits e exponent` is again
the text of a number, and of the same one, unless its exponent or the place of its point does not
fit a word (`ofText_toText_iff`); then it is no number, and stays as it is.
-/

namespace ItemStore.Decimal

/-- Digits without zeros at their ends are all significant. -/
theorem significant_eq_self {ds : List Char} (hfirst : ds.head? ≠ some '0')
    (hlast : ds.getLast? ≠ some '0') : significant ds = ds := by
  have hdrop : ∀ cs : List Char, cs.head? ≠ some '0' → cs.dropWhile (· == '0') = cs := by
    intro cs hcs
    cases cs with
    | nil => rfl
    | cons c cs =>
        have hc : c ≠ '0' := by simpa using hcs
        exact List.dropWhile_cons_of_neg (by simpa using hc)
  have hreverse : ds.reverse.head? ≠ some '0' := by rwa [List.head?_reverse]
  rw [significant, hdrop ds hfirst, hdrop ds.reverse hreverse, List.reverse_reverse]

/-- The parts of a canonical spelling. -/
theorem split_canonical {ds : List Char} (h : ∀ c ∈ ds, c.isDigit = true) (es : List Char) :
    Numeral.split ('0' :: '.' :: (ds ++ 'e' :: es)) = ⟨['0'], ds, some es⟩ := by
  have hmark : ∀ c ∈ '0' :: '.' :: ds, (!Numeral.isExponentMark c) = true := by
    simp only [List.forall_mem_cons]
    exact ⟨rfl, rfl, fun c hc => by rw [not_isExponentMark_of_isDigit (h c hc)]; rfl⟩
  have htake : ('e' :: es).takeWhile (fun c => !Numeral.isExponentMark c) = [] := rfl
  have hdrop : ('e' :: es).dropWhile (fun c => !Numeral.isExponentMark c) = 'e' :: es := rfl
  show Numeral.split ('0' :: '.' :: ds ++ 'e' :: es) = _
  rw [Numeral.split, List.takeWhile_append_of_pos hmark, List.dropWhile_append_of_pos hmark,
    htake, hdrop, List.append_nil]
  rfl

variable {d d' : Decimal}

/-- What is read from a canonical spelling other than `0`. -/
theorem ofText_toText (h : d.Normal) (hne : d.digits ≠ []) :
    ofText d.toText = (exponentRange.within d.exponent).bind
      (ofParts d.negative ⟨['0'], d.digits, some d.exponent.repr.toList⟩) := by
  have hbare : Bare ('0' :: '.' :: (d.digits ++ 'e' :: d.exponent.repr.toList)) := by
    rintro _ ⟨⟩
    decide
  have htext : d.toText = String.ofList (Sign.text (if d.negative then some .minus else none) ++
      '0' :: '.' :: (d.digits ++ 'e' :: d.exponent.repr.toList)) := by
    rw [← String.ofList_toList (s := d.toText), toText_toList, if_neg hne]
    cases d.negative <;> rfl
  have hexponent : exponentRange.read (String.ofList d.exponent.repr.toList) =
      exponentRange.within d.exponent := by
    rw [String.ofList_toList]
    exact Text.IntRange.read_toString _ _
  have hsplit := split_canonical h.isDigit d.exponent.repr.toList
  rw [htext, ofText_signed fun _ => hbare, readUnsigned_of_some (by rw [hsplit]), hexponent, hsplit]
  cases d.negative <;> rfl

/-- A canonical spelling is read as the number that it was made from, or not at all. -/
theorem ofText_toText_iff (h : d.Normal) (hne : d.digits ≠ []) :
    ofText d.toText = some d' ↔ (Fits d.exponent ∧ Fits (d.exponent + 1)) ∧ d' = d := by
  obtain ⟨negative, ds, e⟩ := d
  have hdigits : ∀ c ∈ '0' :: ds, c.isDigit = true := List.forall_mem_cons.mpr ⟨rfl, h.isDigit⟩
  have hsignificant : significant ('0' :: ds) = ds := by
    have hzero : significant ('0' :: ds) = significant ds := rfl
    rw [hzero, significant_eq_self h.first h.last]
  have hzeros : (('0' :: ds).takeWhile (· == '0')).length = 1 := by
    cases ds with
    | nil => rfl
    | cons c cs =>
        have hc : (c == '0') = false := by simpa using h.first
        simp [hc]
  have hparts : Fits e → (ofParts negative ⟨['0'], ds, some e.repr.toList⟩ e = some d' ↔
      Fits (e + 1) ∧ d' = ⟨negative, ds, e⟩) := by
    intro hfits
    have hall : Numeral.digits ⟨['0'], ds, some e.repr.toList⟩ = '0' :: ds := rfl
    rw [ofParts_eq_some_iff, hall, hsignificant, hzeros]
    simp only [List.length_singleton, Nat.cast_one, add_comm (1 : ℤ) e, add_sub_cancel_right,
      wrapExponent_eq_self hfits]
    constructor
    · rintro ⟨-, ⟨hnil, -⟩ | ⟨-, hpoint, hd'⟩⟩
      · exact absurd hnil hne
      · exact ⟨hpoint, hd'⟩
    · rintro ⟨hpoint, hd'⟩
      exact ⟨⟨List.cons_ne_nil _ _, hdigits⟩, Or.inr ⟨hne, hpoint, hd'⟩⟩
  rw [ofText_toText h hne, Option.bind_eq_some_iff]
  simp only [within_eq_some_iff]
  constructor
  · rintro ⟨_, ⟨hfits, rfl⟩, hd'⟩
    obtain ⟨hpoint, rfl⟩ := (hparts hfits).mp hd'
    exact ⟨⟨hfits, hpoint⟩, rfl⟩
  · rintro ⟨⟨hfits, hpoint⟩, rfl⟩
    exact ⟨e, ⟨hfits, rfl⟩, (hparts hfits).mpr ⟨hpoint, rfl⟩⟩

/-- A canonical spelling stays as it is. -/
theorem canonical_toText (h : d.Normal) : canonical d.toText = d.toText := by
  by_cases hne : d.digits = []
  · rw [h.zero hne]
    rfl
  · rw [canonical]
    cases hread : ofText d.toText with
    | none => rfl
    | some d' => rw [((ofText_toText_iff h hne).mp hread).2]

theorem canonical_canonical (text : String) : canonical (canonical text) = canonical text := by
  cases htext : ofText text with
  | none =>
      rw [canonical, canonical, htext]
      simp only [htext]
  | some d =>
      have hcanonical : canonical text = d.toText := by rw [canonical, htext]
      rw [hcanonical, canonical_toText (normal_of_ofText htext)]

/-- Texts of numbers have one canonical spelling if they compare equal. -/
theorem canonical_eq_iff_compareTexts {a b : String} (h : (compareTexts a b).isSome = true) :
    canonical a = canonical b ↔ compareTexts a b = some .eq := by
  obtain ⟨ha, hb⟩ := isSome_compareTexts_iff.mp h
  obtain ⟨c, hc, hcn⟩ := exists_normal_of_isNumber ha
  obtain ⟨d, hd, hdn⟩ := exists_normal_of_isNumber hb
  rw [compareTexts_of_ofText hc hd, Option.some.injEq, compare_eq_iff_eq, value_inj hcn hdn,
    canonical, hc, canonical, hd]
  exact toText_inj hcn hdn

/-- Canonical spellings identify the values of numbers.  Of two texts that are compared as numbers,
the canonical spellings are one exactly if the texts compare equal; a text that is no number stays
as it is; and so does every canonical spelling, also one that is itself no number. -/
theorem canonical_identifies (a b : String) :
    ((compareTexts a b).isSome = true →
      (canonical a = canonical b ↔ compareTexts a b = some .eq)) ∧
    (compareTexts a a = none → canonical a = a) ∧
    canonical (canonical a) = canonical a := by
  refine ⟨canonical_eq_iff_compareTexts, ?unread, canonical_canonical a⟩
  case unread =>
    intro h
    cases ha : ofText a with
    | none => rw [canonical, ha]
    | some d =>
        rw [compareTexts, ha] at h
        cases h

/-- At the largest exponent of a word, two spellings of one number have one canonical spelling,
which no word holds the point of. -/
theorem canonical_identifies_largest :
    canonical "1e9223372036854775806" = canonical "10e9223372036854775805" ∧
    compareTexts "0.1e9223372036854775807" "0.1e9223372036854775807" = none ∧
    canonical "0.1e9223372036854775807" = "0.1e9223372036854775807" ∧
    canonical "1e9223372036854775806" = "0.1e9223372036854775807" := by
  have heq : compareTexts "1e9223372036854775806" "10e9223372036854775805" = some .eq := by
    decide +kernel
  have hnone : compareTexts "0.1e9223372036854775807" "0.1e9223372036854775807" = none := by
    decide +kernel
  obtain ⟨hiff, -, -⟩ := canonical_identifies "1e9223372036854775806" "10e9223372036854775805"
  obtain ⟨-, hunread, -⟩ := canonical_identifies "0.1e9223372036854775807" ""
  refine ⟨(hiff (by rw [heq]; rfl)).mpr heq, hnone, hunread hnone, ?_⟩
  decide +kernel

end ItemStore.Decimal
