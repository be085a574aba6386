import ItemStore.Proofs.Bindings
import ItemStore.Proofs.KeyShape

/-!
# Criteria as key conditions

Criteria that ask for one value of the partition key, and for at most one restriction of the sort
key, state a key condition, `Criteria.States`, and no other criteria do.  Compiled, read back and
split again, they give the key condition that they state, with their own operators and operands;
all other criteria are refused on the way (`Criteria.split_compiled_iff`).  What a criterion's
condition says about the partition key or the sort key is told first (`picks_condition_iff`,
`restricts_condition_iff`); the criteria then have the shape of a key condition exactly if their
conditions do.
-/

namespace ItemStore

/-- What a criterion asks of a sort key of a type, with its own operator and operands.  The bounds
of a range must not be inverted, and numbers have no beginnings. -/
inductive Criterion.Restricts (type : ScalarType) : Criterion → SortCondition → Prop
  | equals {v : Value} : v.kind = type.kind →
      Restricts type (.equals v) (.eq (SortKey.ofValue v))
  | lt {v : Value} : v.kind = type.kind →
      Restricts type (.compare .lt v) (.lt (SortKey.ofValue v))
  | le {v : Value} : v.kind = type.kind →
      Restricts type (.compare .le v) (.le (SortKey.ofValue v))
  | gt {v : Value} : v.kind = type.kind →
      Restricts type (.compare .gt v) (.gt (SortKey.ofValue v))
  | ge {v : Value} : v.kind = type.kind →
      Restricts type (.compare .ge v) (.ge (SortKey.ofValue v))
  | between {low high : Value} : low.kind = type.kind → high.kind = type.kind →
      (SortKey.ofValue low).compare (SortKey.ofValue high) ≠ .gt →
      Restricts type (.between low high) (.between (SortKey.ofValue low) (SortKey.ofValue high))
  | beginsWith {v : Value} : v.kind = type.kind → type ≠ .number →
      Restricts type (.beginsWith v) (.beginsWith (SortKey.ofValue v))

/-- The key condition that criteria state: one value of the partition key, and perhaps one
restriction of the sort key, before or after it. -/
inductive Criteria.States (s : KeySchema) : List (String × Criterion) → KeyCondition → Prop
  | partition {v : Value} : v.kind = s.partition.type.kind →
      States s [(s.partition.name, .equals v)] ⟨v, none⟩
  | partitionFirst {v : Value} {a : KeyAttribute} {c : Criterion} {r : SortCondition} :
      v.kind = s.partition.type.kind → s.sort = some a → c.Restricts a.type r →
      States s [(s.partition.name, .equals v), (a.name, c)] ⟨v, some r⟩
  | sortFirst {v : Value} {a : KeyAttribute} {c : Criterion} {r : SortCondition} :
      v.kind = s.partition.type.kind → s.sort = some a → c.Restricts a.type r →
      States s [(a.name, c), (s.partition.name, .equals v)] ⟨v, some r⟩

namespace Criterion

variable {values : NameMap Value} {name : String} {c : Criterion} {a : KeyAttribute} {v : Value}
  {s : KeySchema} {es : List (String × Criterion)} {k : KeyCondition}

/-! ## The condition of one criterion -/

theorem trim_condition (c : Criterion) (name : String) :
    (c.condition name).trim = c.condition name := by
  cases c <;> rfl

/-- Only an equality picks a partition. -/
theorem picks_condition_iff (hb : ∀ b ∈ c.bindings name, NameMap.get? values b.1 = some b.2) :
    (c.condition name).Picks a values v ↔
      name = a.name ∧ c = .equals v ∧ v.kind = a.type.kind := by
  constructor
  · intro h
    cases c with
    | equals w =>
        cases h with
        | right hp =>
            obtain ⟨rfl, hkind⟩ := (KeyAttribute.binds_iff (hb _ List.mem_cons_self)).mp hp
            exact ⟨rfl, rfl, hkind⟩
    | compare op w => cases op <;> cases h
    | _ => cases h
  · rintro ⟨rfl, rfl, hkind⟩
    exact .right ⟨hb _ List.mem_cons_self, hkind⟩

/-- A criterion restricts the sort key as it asks. -/
theorem restricts_condition_iff {r : SortCondition}
    (hb : ∀ b ∈ c.bindings name, NameMap.get? values b.1 = some b.2) :
    (c.condition name).Restricts a values r ↔ name = a.name ∧ c.Restricts a.type r := by
  cases c with
  | equals w =>
      have hw : ∀ v, a.Binds values (":" ++ name) v ↔ v = w ∧ w.kind = a.type.kind :=
        fun v => KeyAttribute.binds_iff (hb _ List.mem_cons_self)
      constructor
      · intro h
        cases h with
        | right hp hr =>
            obtain ⟨rfl, hkind⟩ := (hw _).mp hp
            cases hr
            exact ⟨rfl, .equals hkind⟩
      · rintro ⟨rfl, h⟩
        cases h with
        | equals hkind => exact .right ((hw _).mpr ⟨rfl, hkind⟩) .eq
  | compare op w =>
      have hw : ∀ v, a.Binds values (":" ++ name) v ↔ v = w ∧ w.kind = a.type.kind :=
        fun v => KeyAttribute.binds_iff (hb _ List.mem_cons_self)
      constructor
      · intro h
        cases h with
        | right hp hr =>
            obtain ⟨rfl, hkind⟩ := (hw _).mp hp
            refine ⟨rfl, ?_⟩
            cases op <;> cases hr <;> constructor <;> exact hkind
      · rintro ⟨rfl, h⟩
        cases h <;> exact .right ((hw _).mpr ⟨rfl, ‹_›⟩) (by constructor)
  | beginsWith w =>
      have hw : ∀ v, a.Binds values (":" ++ name) v ↔ v = w ∧ w.kind = a.type.kind :=
        fun v => KeyAttribute.binds_iff (hb _ List.mem_cons_self)
      constructor
      · intro h
        cases h with
        | beginsWith hp htype =>
            obtain ⟨rfl, hkind⟩ := (hw _).mp hp
            exact ⟨rfl, .beginsWith hkind htype⟩
      · rintro ⟨rfl, h⟩
        cases h with
        | beginsWith hkind htype => exact .beginsWith ((hw _).mpr ⟨rfl, hkind⟩) htype
  | between low high =>
      have hlow : ∀ v, a.Binds values (":" ++ (name ++ "min")) v ↔
          v = low ∧ low.kind = a.type.kind := by
        intro v
        rw [← String.append_assoc]
        exact KeyAttribute.binds_iff (hb _ List.mem_cons_self)
      have hhigh : ∀ v, a.Binds values (":" ++ (name ++ "max")) v ↔
          v = high ∧ high.kind = a.type.kind := by
        intro v
        rw [← String.append_assoc]
        exact KeyAttribute.binds_iff (hb _ (List.mem_cons_of_mem _ List.mem_cons_self))
      constructor
      · intro h
        cases h with
        | between hl hh hle =>
            obtain ⟨rfl, hlkind⟩ := (hlow _).mp hl
            obtain ⟨rfl, hhkind⟩ := (hhigh _).mp hh
            exact ⟨rfl, .between hlkind hhkind hle⟩
      · rintro ⟨rfl, h⟩
        cases h with
        | between hlkind hhkind hle =>
            exact .between ((hlow _).mpr ⟨rfl, hlkind⟩) ((hhigh _).mpr ⟨rfl, hhkind⟩) hle

/-! ## The conditions of all criteria -/

/-- The conditions of some criteria are taken in exactly if the criteria state a key condition. -/
theorem addAll_conditions_iff (hs : ∀ a ∈ s.sort, a.name ≠ s.partition.name)
    (hes : ∀ e ∈ es, ∀ b ∈ e.2.bindings e.1, NameMap.get? values b.1 = some b.2) :
    KeyCondition.Parts.addAll s values ⟨none, none⟩ (es.map fun e => e.2.condition e.1) =
      .ok ⟨some k.partition, k.sort⟩ ↔ Criteria.States s es k := by
  have htrim : ∀ d ∈ es.map fun e => e.2.condition e.1, d.trim = d :=
    List.forall_mem_map.mpr fun e _ => trim_condition e.2 e.1
  obtain ⟨v, o⟩ := k
  rw [KeyCondition.Parts.addAll_iff hs htrim]
  constructor
  · intro h
    generalize hds : es.map (fun e => e.2.condition e.1) = ds at h
    cases h with
    | partition hv =>
        obtain ⟨⟨name, c⟩, rfl, rfl⟩ := List.map_eq_singleton_iff.mp hds
        obtain ⟨rfl, rfl, hkind⟩ := (picks_condition_iff (hes _ List.mem_cons_self)).mp hv
        exact .partition hkind
    | both hperm hv ha hr =>
        rcases List.perm_pair.mp hperm with rfl | rfl
        · obtain ⟨⟨name, c⟩, _, rfl, rfl, hrest⟩ := List.map_eq_cons_iff.mp hds
          obtain ⟨⟨name', c'⟩, rfl, rfl⟩ := List.map_eq_singleton_iff.mp hrest
          obtain ⟨rfl, rfl, hkind⟩ := (picks_condition_iff (hes _ List.mem_cons_self)).mp hv
          obtain ⟨rfl, hr⟩ := (restricts_condition_iff
            (hes _ (List.mem_cons_of_mem _ List.mem_cons_self))).mp hr
          exact .partitionFirst hkind ha hr
        · obtain ⟨⟨name, c⟩, _, rfl, rfl, hrest⟩ := List.map_eq_cons_iff.mp hds
          obtain ⟨⟨name', c'⟩, rfl, rfl⟩ := List.map_eq_singleton_iff.mp hrest
          obtain ⟨rfl, hr⟩ := (restricts_condition_iff (hes _ List.mem_cons_self)).mp hr
          obtain ⟨rfl, rfl, hkind⟩ := (picks_condition_iff
            (hes _ (List.mem_cons_of_mem _ List.mem_cons_self))).mp hv
          exact .sortFirst hkind ha hr
  · intro h
    cases h with
    | partition hkind =>
        exact .partition ((picks_condition_iff (hes _ List.mem_cons_self)).mpr ⟨rfl, rfl, hkind⟩)
    | partitionFirst hkind ha hr =>
        exact .both (List.Perm.refl _)
          ((picks_condition_iff (hes _ List.mem_cons_self)).mpr ⟨rfl, rfl, hkind⟩) ha
          ((restricts_condition_iff (hes _ (List.mem_cons_of_mem _ List.mem_cons_self))).mpr
            ⟨rfl, hr⟩)
    | sortFirst hkind ha hr =>
        exact .both (List.Perm.swap _ _ _)
          ((picks_condition_iff (hes _ (List.mem_cons_of_mem _ List.mem_cons_self))).mpr
            ⟨rfl, rfl, hkind⟩) ha
          ((restricts_condition_iff (hes _ List.mem_cons_self)).mpr ⟨rfl, hr⟩)

end Criterion

namespace Criteria

/-- Criteria are compiled to a text that is read. -/
theorem exists_compiled {cs : Criteria} (hne : cs.entries ≠ []) (hnames : cs.Named)
    (hvalues : cs.Unambiguous) :
    ∃ bound c, cs.compile = .ok bound ∧ Condition.ofText bound.text = .ok c := by
  obtain ⟨bound, hbound⟩ := exists_compile_iff.mpr hvalues
  obtain ⟨c, hc, -⟩ := ofText_text_sound hne hnames
  refine ⟨bound, c, hbound, ?_⟩
  rw [(compile_eq_ok hbound).1, hc]

/-- What was compiled and read is split exactly if the criteria state a key condition. -/
theorem ofCondition_compiled_iff {cs : Criteria} {s : KeySchema} {bound : BoundCondition}
    {c : Condition} {k : KeyCondition} (hnames : cs.Named)
    (hs : ∀ a ∈ s.sort, a.name ≠ s.partition.name) (hbound : cs.compile = .ok bound)
    (hc : Condition.ofText bound.text = .ok c) :
    KeyCondition.ofCondition s bound.values c = .ok k ↔ States s cs.entries k := by
  obtain ⟨htext, hbindings⟩ := compile_eq_ok hbound
  have hes : ∀ e ∈ cs.entries, ∀ b ∈ e.2.bindings e.1, NameMap.get? bound.values b.1 = some b.2 :=
    fun e he b hb => hbindings b (List.mem_flatMap.mpr ⟨e, he, hb⟩)
  have hne : cs.entries ≠ [] := by
    intro hempty
    rw [htext, text, hempty] at hc
    cases hc
  obtain ⟨d, hd, hconjuncts, -⟩ := ofText_text_sound hne hnames
  rw [htext, hd] at hc
  cases hc
  rw [KeyCondition.ofCondition_eq_ok_iff, hconjuncts,
    Criterion.addAll_conditions_iff hs hes]

/-- The criteria of a query reach the store unchanged.  For all criteria of attributes whose names
are words and no keywords, in which no parameter stands for two values, and for every key whose
attributes have different names: the criteria are compiled, their text is read, and what was read is
split into a key condition exactly if the criteria state a key condition, which is then the one that
comes out. -/
theorem split_compiled_iff (cs : Criteria) (s : KeySchema) (hnames : cs.Named)
    (hvalues : cs.Unambiguous) (hs : ∀ a ∈ s.sort, a.name ≠ s.partition.name) (k : KeyCondition) :
    (∃ bound c, cs.compile = .ok bound ∧ Condition.ofText bound.text = .ok c ∧
      KeyCondition.ofCondition s bound.values c = .ok k) ↔ States s cs.entries k := by
  constructor
  · rintro ⟨bound, c, hbound, hc, hk⟩
    exact (ofCondition_compiled_iff hnames hs hbound hc).mp hk
  · intro hk
    have hne : cs.entries ≠ [] := by
      intro hempty
      rw [hempty] at hk
      cases hk
    obtain ⟨bound, c, hbound, hc⟩ := exists_compiled hne hnames hvalues
    exact ⟨bound, c, hbound, hc, (ofCondition_compiled_iff hnames hs hbound hc).mpr hk⟩

/-- A range before the equality, on a key with a number as its sort key. -/
theorem split_compiled_iff_readings :
    let cs : Criteria := ⟨[("at", .between (.number "1") (.number "1.0")),
      ("device", .equals (.string "d"))]⟩
    let s : KeySchema := ⟨⟨"device", .string⟩, some ⟨"at", .number⟩⟩
    (cs.Named ∧ cs.Unambiguous ∧ ∀ a ∈ s.sort, a.name ≠ s.partition.name) ∧
    ∃ bound c, cs.compile = .ok bound ∧ Condition.ofText bound.text = .ok c ∧
      KeyCondition.ofCondition s bound.values c =
        .ok ⟨.string "d", some (.between (.number "1") (.number "1.0"))⟩ := by
  intro cs s
  have hnames : cs.Named := by decide
  have hvalues : cs.Unambiguous := by decide
  have hs : ∀ a ∈ s.sort, a.name ≠ s.partition.name := by decide
  have hrange : Criterion.Restricts .number (.between (.number "1") (.number "1.0"))
      (.between (.number "1") (.number "1.0")) :=
    .between rfl rfl (by decide +kernel : SortKey.compare (.number "1") (.number "1.0") ≠ .gt)
  have hstates : States s cs.entries
      ⟨.string "d", some (.between (.number "1") (.number "1.0"))⟩ :=
    States.sortFirst (s := s) (v := .string "d") (a := ⟨"at", .number⟩) rfl rfl hrange
  exact ⟨⟨hnames, hvalues, hs⟩, (split_compiled_iff cs s hnames hvalues hs _).mpr hstates⟩

end Criteria

end ItemStore
