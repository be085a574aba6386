import ItemStore.Proofs.ComparisonLaws
import ItemStore.Proofs.ConditionTruth

/-!
# Membership and equality

A comparison takes two spellings of a number for equal, while `contains` asks a list or a set for
an element as it is written.  All other values are equal only if they are written alike, so that
the two part in one case: the value asked for is a number, and the list or set has it in other
spellings only (`Value.Respelled`).  Everywhere else `contains` is true exactly if some member is
equal to the value (`Condition.contains_iff_equal`).
-/

namespace ItemStore

namespace Value

variable {container v w : Value} {ms : List Value} {s t : String}

/-- What a list or a set consists of, each member of a set as a value of its own. -/
def members? : Value → Option (List Value)
  | stringSet ms => some (ms.map string)
  | numberSet ms => some (ms.map number)
  | binarySet ms => some (ms.map binary)
  | list xs => some xs
  | _ => none

/-- A list or a set contains its members as they are written. -/
theorem containsValue_iff_mem (h : container.members? = some ms) :
    container.containsValue w = true ↔ w ∈ ms := by
  cases container with
  | stringSet | numberSet | binarySet =>
      cases h
      cases w <;> simp [containsValue]
  | list xs =>
      cases h
      exact decide_eq_true_iff
  | string | number | binary | bool | null | map => cases h

/-- Values are equal if they are written alike or are spellings of one number. -/
theorem test_eq_iff_written :
    test .eq v w = true ↔
      v = w ∨ ∃ s t, v = number s ∧ w = number t ∧ Decimal.compareTexts s t = some .eq := by
  constructor
  · intro h
    unfold test at h
    split at h
    next o horder =>
        obtain rfl : o = .eq := by simpa [Comparator.holds] using h
        unfold order? at horder
        split at horder
        next s t =>
            exact Or.inl (congrArg string (Std.LawfulEqOrd.eq_of_compare (Option.some.inj horder)))
        next s t => exact Or.inr ⟨s, t, rfl, rfl, horder⟩
        next b c =>
            exact Or.inl (congrArg binary (Std.LawfulEqOrd.eq_of_compare (Option.some.inj horder)))
        next => cases horder
    next => exact Or.inl (of_decide_eq_true h)
  · rintro (rfl | ⟨s, t, rfl, rfl, h⟩)
    · exact test_eq_iff.mpr rfl
    · rw [test, order?, h]
      rfl

theorem kind_eq_of_test_eq (h : test .eq v w = true) : v.kind = w.kind := by
  rcases test_eq_iff_written.mp h with rfl | ⟨s, t, rfl, rfl, -⟩ <;> rfl

/-- The value is a number that is among the members in other spellings only. -/
def Respelled (ms : List Value) (w : Value) : Prop :=
  w ∉ ms ∧ ∃ s t, number s ∈ ms ∧ w = number t ∧ Decimal.compareTexts s t = some .eq

/-- Some member is equal to a value if it is there as it is written, or respelled. -/
theorem exists_test_eq_iff :
    (∃ m ∈ ms, test .eq m w = true) ↔ w ∈ ms ∨ Respelled ms w := by
  constructor
  · rintro ⟨m, hm, heq⟩
    by_cases hw : w ∈ ms
    · exact Or.inl hw
    rcases test_eq_iff_written.mp heq with rfl | ⟨s, t, rfl, rfl, hst⟩
    · exact Or.inl hm
    · exact Or.inr ⟨hw, s, t, hm, rfl, hst⟩
  · rintro (hw | ⟨-, s, t, hs, rfl, hst⟩)
    · exact ⟨w, hw, test_eq_iff_written.mpr (Or.inl rfl)⟩
    · exact ⟨.number s, hs, test_eq_iff_written.mpr (Or.inr ⟨s, t, rfl, rfl, hst⟩)⟩

end Value

namespace Condition

variable {item : Item} {values : NameMap Value} {path : List String} {name : String}
  {container w : Value} {ms : List Value}

theorem eval_contains (hpath : item.Leads path container)
    (hname : NameMap.get? values name = some w) :
    (call .contains [.path path, .param name]).eval item values =
      .ok (container.containsValue w) := by
  have hargument : Function.argument item values .contains [.path path, .param name] = .ok w := by
    show ((Operand.param name).resolve item values).bind _ = _
    rw [Operand.resolve_param hname]
    rfl
  show (Function.argument item values .contains _).bind _ = _
  rw [hargument, Item.lookup_eq_some_iff.mpr hpath]
  rfl

/-- Whether a list or a set contains a value is whether one of its members is equal to it, but for
numbers that it has in other spellings only: these are equal to a member and are not found.  What is
equal to a member is of its type. -/
theorem contains_iff_equal (hpath : item.Leads path container)
    (hname : NameMap.get? values name = some w) (hms : container.members? = some ms) :
    ∃ b, (call .contains [.path path, .param name]).eval item values = .ok b ∧
      (b = true ↔ w ∈ ms) ∧
      (∀ m ∈ ms, Value.test .eq m w = true → m.kind = w.kind) ∧
      ((b = true ↔ ∃ m ∈ ms, Value.test .eq m w = true) ↔ ¬ Value.Respelled ms w) := by
  refine ⟨_, eval_contains hpath hname, Value.containsValue_iff_mem hms,
    fun m _ => Value.kind_eq_of_test_eq, ?_⟩
  rw [Value.containsValue_iff_mem hms, Value.exists_test_eq_iff]
  constructor
  · rintro h hrespelled
    exact hrespelled.1 (h.mpr (Or.inr hrespelled))
  · intro hspelled
    rw [or_iff_left hspelled]

/-- A set of two numbers has one of them as it is written. -/
theorem contains_iff_equal_marks :
    Item.Leads [("marks", .numberSet ["1.0", "2"])] ["marks"] (.numberSet ["1.0", "2"]) ∧
      (call .contains [.path ["marks"], .param ":v"]).eval
        [("marks", .numberSet ["1.0", "2"])] [(":v", .number "2")] = .ok true := by
  have hpath : Item.Leads [("marks", .numberSet ["1.0", "2"])] ["marks"]
      (.numberSet ["1.0", "2"]) := .here rfl
  have hname : NameMap.get? [(":v", Value.number "2")] ":v" = some (.number "2") := rfl
  obtain ⟨b, heval, hmem, -, -⟩ := contains_iff_equal hpath hname rfl
  obtain rfl : b = true := hmem.mpr (by simp)
  exact ⟨hpath, heval⟩

/-- The same set has the number 1, which is not found. -/
theorem contains_not_equal :
    ¬ ∀ (item : Item) (values : NameMap Value) (path : List String) (name : String)
      (container w : Value) (ms : List Value), item.Leads path container →
      NameMap.get? values name = some w → container.members? = some ms →
      ((call .contains [.path path, .param name]).eval item values = .ok true ↔
        ∃ m ∈ ms, m.kind = w.kind ∧ Value.test .eq m w = true) := by
  intro h
  have hiff := h [("marks", .numberSet ["1.0", "2"])] [(":v", .number "1")] ["marks"] ":v"
    _ _ _ (.here rfl) rfl rfl
  have hfalse := hiff.mpr ⟨.number "1.0", List.mem_cons_self, rfl, by decide⟩
  revert hfalse
  decide

end Condition

end ItemStore
