import ItemStore.Proofs.CriteriaMeaning
import ItemStore.Proofs.KeyCondition
import ItemStore.Repository

/-!
# The criteria of a request

A request has the criteria of its key and those of its filter in two texts, with one map of values
for both.  Joining the values succeeds only if no parameter would stand for two values, and then
every criterion finds its own values in the map (`Repository.compile_eq_ok`).  A store therefore
reads the filter as one that keeps the items of which the criteria hold (`Store.keeps_filter`), and
the key condition as one that is true of these items (`Store.readCondition_key`).
-/

namespace ItemStore

variable {values : NameMap Value} {name : String}

/-! ## Joining values -/

namespace BoundCondition

theorem ascending_bindAll {m m' : NameMap Value} {bs : List (String × Value)}
    (hm : NameMap.Ascending m) (h : bindAll m bs = .ok m') : NameMap.Ascending m' := by
  induction bs generalizing m with
  | nil =>
      cases h
      exact hm
  | cons b bs ih =>
      obtain ⟨m₁, hbind, hrest⟩ := bind_eq_ok_iff.mp h
      refine ih ?_ hrest
      unfold bind at hbind
      split at hbind
      · cases hbind
        exact hm.set b.1 b.2
      · split at hbind
        · cases hbind
          exact hm
        · cases hbind

theorem eq_of_conflict?_eq_none {base other : NameMap Value} (h : conflict? base other = .none)
    {v w : Value} (hv : NameMap.get? base name = some v)
    (hw : NameMap.get? other name = some w) : v = w := by
  rw [conflict?, Option.map_eq_none_iff, List.find?_eq_none] at h
  have hagree := h _ (NameMap.mem_of_get? hw)
  simpa [hv] using hagree

/-- Joined values have what either condition has. -/
theorem mergeValues_eq_ok {c other merged : BoundCondition}
    (hother : NameMap.Ascending other.values) (h : c.mergeValues other = .ok merged) :
    merged.text = c.text ∧
      (∀ n v, NameMap.get? c.values n = some v → NameMap.get? merged.values n = some v) ∧
      ∀ n v, NameMap.get? other.values n = some v → NameMap.get? merged.values n = some v := by
  rw [mergeValues] at h
  split at h
  next => cases h
  next hnone =>
      cases h
      refine ⟨rfl, ?_, ?_⟩
      · intro n v hv
        rw [hother.get?_union]
        cases hw : NameMap.get? other.values n with
        | none => exact hv
        | some w => rw [eq_of_conflict?_eq_none hnone hv hw, Option.some_or]
      · intro n v hv
        rw [hother.get?_union, hv, Option.some_or]

end BoundCondition

namespace Criteria

/-- All names are words that can stand for an attribute. -/
def Named (cs : Criteria) : Prop := ∀ e ∈ cs.entries, Token.Identifier e.1

instance (cs : Criteria) : Decidable cs.Named :=
  inferInstanceAs (Decidable (∀ e ∈ cs.entries, Token.Identifier e.1))

/-- The number texts that the criteria compare with are numbers. -/
def Numeric (cs : Criteria) : Prop := ∀ b ∈ cs.bindings, (SortKey.ofValue b.2).numeric = true

instance (cs : Criteria) : Decidable cs.Numeric :=
  inferInstanceAs (Decidable (∀ b ∈ cs.bindings, (SortKey.ofValue b.2).numeric = true))

/-- The values give every parameter of the criteria its own value. -/
def BoundIn (values : NameMap Value) (cs : Criteria) : Prop :=
  ∀ b ∈ cs.bindings, NameMap.get? values b.1 = some b.2

theorem ascending_compile {cs : Criteria} {bound : BoundCondition} (h : cs.compile = .ok bound) :
    NameMap.Ascending bound.values := by
  obtain ⟨values, hvalues, h⟩ := bind_eq_ok_iff.mp h
  cases h
  exact BoundCondition.ascending_bindAll NameMap.ascending_nil hvalues

theorem compileOptional_eq_ok {o : Option Criteria} {bound : BoundCondition}
    (h : compileOptional o = .ok bound) :
    bound.text = (o.map text).getD "" ∧ NameMap.Ascending bound.values ∧
      ∀ cs ∈ o, cs.BoundIn bound.values := by
  cases o with
  | none =>
      cases h
      exact ⟨rfl, NameMap.ascending_nil, nofun⟩
  | some cs =>
      obtain ⟨htext, hvalues⟩ := compile_eq_ok h
      refine ⟨htext, ascending_compile h, ?_⟩
      rintro _ ⟨⟩
      exact hvalues

end Criteria

/-- What the criteria of a request are compiled to. -/
theorem Repository.compile_eq_ok {key filter : Option Criteria} {bound : BoundCondition}
    {text : Option String} (h : compile key filter = .ok (bound, text)) :
    bound.text = (key.map Criteria.text).getD "" ∧
      (∃ f : BoundCondition, f.text = (filter.map Criteria.text).getD "" ∧ text = f.text?) ∧
      (∀ cs ∈ key, cs.BoundIn bound.values) ∧ ∀ cs ∈ filter, cs.BoundIn bound.values := by
  obtain ⟨k, hk, h⟩ := bind_eq_ok_iff.mp h
  obtain ⟨f, hf, h⟩ := bind_eq_ok_iff.mp h
  obtain ⟨merged, hmerged, h⟩ := bind_eq_ok_iff.mp h
  cases h
  obtain ⟨hktext, -, hkvalues⟩ := Criteria.compileOptional_eq_ok hk
  obtain ⟨hftext, hascending, hfvalues⟩ := Criteria.compileOptional_eq_ok hf
  obtain ⟨htext, hleft, hright⟩ := BoundCondition.mergeValues_eq_ok hascending hmerged
  refine ⟨htext.trans hktext, ⟨f, hftext, rfl⟩, ?_, ?_⟩
  · exact fun cs hcs b hb => hleft _ _ (hkvalues cs hcs b hb)
  · exact fun cs hcs b hb => hright _ _ (hfvalues cs hcs b hb)

/-! ## Reading the texts -/

theorem Condition.allBlank_of_ofText {text : String} {c : Condition} (h : ofText text = .ok c) :
    Text.allBlank text = false := by
  rw [ofText] at h
  split at h
  next => cases h
  next hblank => exact Bool.eq_false_of_not_eq_true hblank

/-- Every parameter of a criterion's condition is one that the criterion binds. -/
theorem Criterion.exists_binding {c : Criterion} {param : String}
    (h : .param param ∈ (c.condition name).operands) : ∃ b ∈ c.bindings name, b.1 = param := by
  cases c with
  | between low high =>
      simp only [condition, Condition.operands, List.mem_cons, reduceCtorEq, Operand.param.injEq,
        List.not_mem_nil, or_false, false_or] at h
      simp only [bindings, List.mem_cons, List.not_mem_nil, or_false, exists_eq_or_imp,
        exists_eq_left, String.append_assoc]
      exact h.imp Eq.symm Eq.symm
  | _ => simpa [condition, Condition.operands, bindings, eq_comm] using h

/-- Whether an item satisfies criteria that may be absent. -/
def Criteria.holdOptional (o : Option Criteria) (item : Item) : Bool :=
  o.all fun cs => hold cs.entries item

namespace Store

/-- What a filter must do to keep some items. -/
def Keeps (filter : Option Condition) (values : NameMap Value) (kept : Item → Bool) : Prop :=
  (∀ f ∈ filter, ∀ x, f.eval x values = .ok (kept x)) ∧ (filter = none → ∀ x, kept x = true)

theorem readCondition_eq_ok_iff {text : String} {c : Condition} :
    readCondition text = .ok c ↔ Condition.ofText text = .ok c :=
  mapError_eq_ok_iff

theorem readFilter_text? {bound : BoundCondition} {c : Condition}
    (h : Condition.ofText bound.text = .ok c) : readFilter bound.text? = .ok (some c) := by
  have hnotblank := Condition.allBlank_of_ofText h
  have hne : bound.text.isEmpty = false := by
    refine Bool.eq_false_of_not_eq_true ?_
    intro hempty
    rw [String.isEmpty_iff.mp hempty] at hnotblank
    cases hnotblank
  rw [BoundCondition.text?, hne, if_neg Bool.false_ne_true, readFilter, hnotblank,
    if_neg Bool.false_ne_true, readCondition_eq_ok_iff.mpr h]
  rfl

/-- The filter of a request keeps the items of which its criteria hold. -/
theorem keeps_filter {o : Option Criteria} {bound : BoundCondition} {f : Option Condition}
    (htext : bound.text = (o.map Criteria.text).getD "") (hnames : ∀ cs ∈ o, cs.Named)
    (hvalues : ∀ cs ∈ o, cs.BoundIn values) (h : readFilter bound.text? = .ok f) :
    Keeps f values (Criteria.holdOptional o) := by
  have hblank : bound.text = "" → f = none := by
    intro hempty
    rw [BoundCondition.text?, hempty] at h
    cases h
    rfl
  cases o with
  | none =>
      rw [hblank htext]
      exact ⟨nofun, fun _ _ => rfl⟩
  | some cs =>
      obtain ⟨entries⟩ := cs
      cases entries with
      | nil =>
          rw [hblank htext]
          exact ⟨nofun, fun _ _ => rfl⟩
      | cons e es =>
          obtain ⟨c, hc, -, heval⟩ := Criteria.ofText_text_sound (List.cons_ne_nil e es)
            (hnames _ rfl)
          have hbound : Condition.ofText bound.text = .ok c := by
            rw [htext]
            exact hc
          rw [readFilter_text? hbound] at h
          cases h
          refine ⟨?_, nofun⟩
          intro d hd x
          cases hd
          exact heval values (hvalues _ rfl) x

/-- The key condition of a request is true of the items of which its criteria hold. -/
theorem readCondition_key {key : Criteria} {c : Condition} (hnames : key.Named)
    (hnumeric : key.Numeric) (hvalues : key.BoundIn values) (h : readCondition key.text = .ok c) :
    (∀ x, c.eval x values = .ok (Criteria.hold key.entries x)) ∧
      ∀ d ∈ c.conjuncts, d.NumericUnder values := by
  rw [readCondition_eq_ok_iff] at h
  have hne : key.entries ≠ [] := by
    intro hnil
    rw [Criteria.text, hnil] at h
    cases h
  obtain ⟨d, hd, hconjuncts, heval⟩ := Criteria.ofText_text_sound hne hnames
  obtain rfl : d = c := Except.ok.inj (hd.symm.trans h)
  refine ⟨heval values hvalues, ?_⟩
  intro part hpart param hparam v hv
  rw [hconjuncts] at hpart
  obtain ⟨e, he, rfl⟩ := List.mem_map.mp hpart
  obtain ⟨b, hb, rfl⟩ := Criterion.exists_binding hparam
  have hmem : b ∈ key.bindings := List.mem_flatMap.mpr ⟨e, he, hb⟩
  rw [hvalues b hmem] at hv
  cases hv
  exact hnumeric b hmem

end Store

end ItemStore
