import ItemStore.Proofs.ReadPaths

/-!
# Key conditions as filters

A condition is used in two ways.  As a key condition it is split, and items are found by their
partition and sort key; as a filter it is evaluated on each item.  On every item that has the key,
both come to the same (`KeyCondition.eval_eq_lookup`).  The two tests of the partition key agree as
well: a table looks it up in the canonical spelling of its number (`matches_iff_partitionOf`), an
index compares it in the order of keys (`matches_iff_same`).
-/

namespace ItemStore

/-- Values of the key types are not changed by reading them as keys. -/
theorem SortKey.toValue_ofValue {v : Value} {type : ScalarType} (h : v.kind = type.kind) :
    (SortKey.ofValue v).toValue = v := by
  cases type <;> cases v <;> cases h <;> rfl

/-- An item with all key attributes has a key, which starts with its partition value. -/
theorem KeySchema.exists_extract {s : KeySchema} {item : Item}
    (h : ∀ a ∈ s.attributes, ¬ a.Unfit item) :
    ∃ v sk, NameMap.get? item s.partition.name = some v ∧ v.kind = s.partition.type.kind ∧
      s.extract item = .ok (SortKey.ofValue v, sk) := by
  obtain ⟨v, hv, hkind⟩ := KeyAttribute.not_unfit_iff.mp (h _ List.mem_cons_self)
  cases hx : s.extract item with
  | error e =>
      obtain ⟨a, ha, hunfit⟩ := KeySchema.extract_eq_error_iff.mp ⟨e, hx⟩
      exact absurd hunfit (h a ha)
  | ok key =>
      obtain ⟨pk, sk⟩ := key
      obtain ⟨w, hw, -, rfl⟩ := KeyAttribute.read_eq_ok_iff.mp (extract_eq_ok_iff.mp hx).1
      obtain rfl : v = w := Option.some.inj (hv.symm.trans hw)
      exact ⟨v, sk, hv, hkind, rfl⟩

namespace KeyCondition

variable {k : KeyCondition} {pk sk : SortKey} {v : Value}

/-- An index finds the keys that are the same in the order of keys. -/
theorem matches_iff_same :
    k.matches pk sk = true ↔
      pk.same (SortKey.ofValue k.partition) = true ∧ ∀ r ∈ k.sort, r.holds sk = true := by
  rw [KeyCondition.matches, Bool.and_eq_true]
  cases k.sort <;> simp

/-- A table finds the keys of the partition. -/
theorem matches_iff_partitionOf {type : ScalarType} (hkind : v.kind = type.kind)
    (hv : (SortKey.ofValue v).numeric = true)
    (hk : (SortKey.ofValue k.partition).numeric = true) :
    k.matches (SortKey.ofValue v) sk = true ↔
      Table.partitionOf v = Table.partitionOf k.partition ∧ ∀ r ∈ k.sort, r.holds sk = true := by
  have habsent : SortKey.ofValue v ≠ .absent := by
    cases type <;> cases v <;> cases hkind <;> exact nofun
  have hpartition := Table.partitionOf_eq_iff_ofValue habsent hv hk
  rw [SortKey.toValue_ofValue hkind] at hpartition
  rw [matches_iff_same, SortKey.same_iff, hpartition]

/-- Key conditions and filters agree.  Where a condition is split into a key condition, it is
evaluated without error on every item that has the attributes of the key with their types, provided
that the texts of numbers are numbers.  It is true exactly if the item is in the partition that the
key condition picks and its sort key satisfies the restriction of the sort key, if there is one; the
test of the partition key in the order of keys comes to the same. -/
theorem eval_eq_lookup (s : KeySchema) (values : NameMap Value) (c : Condition) (k : KeyCondition)
    (item : Item) (hk : ofCondition s values c = .ok k) (hvalues : NumericValues values)
    (hitem : ∀ a ∈ s.attributes, ¬ a.Unfit item) (hn : s.numeric item = true) :
    ∃ v sk b, NameMap.get? item s.partition.name = some v ∧
      s.extract item = .ok (SortKey.ofValue v, sk) ∧ c.eval item values = .ok b ∧
      (b = true ↔ Table.partitionOf v = Table.partitionOf k.partition ∧
        ∀ r ∈ k.sort, r.holds sk = true) ∧
      (b = true ↔ (SortKey.ofValue v).same (SortKey.ofValue k.partition) = true ∧
        ∀ r ∈ k.sort, r.holds sk = true) := by
  obtain ⟨v, sk, hv, hkind, hx⟩ := KeySchema.exists_extract hitem
  obtain ⟨hpk, hsk⟩ := KeySchema.numeric_of_extract hn hx
  obtain ⟨heval, hknumeric⟩ :=
    eval_of_ofCondition hk hx hpk hsk fun d _ => hvalues.numericUnder d
  exact ⟨v, sk, _, hv, hx, heval, matches_iff_partitionOf hkind hpk hknumeric.1, matches_iff_same⟩

/-- The parameter stands on the left of the comparison, and the partition key is spelled in two
ways. -/
theorem eval_eq_lookup_readings :
    let s : KeySchema := ⟨⟨"device", .number⟩, some ⟨"at", .number⟩⟩
    let values : NameMap Value := [(":a", .number "3"), (":d", .number "1.0")]
    let c : Condition := .and (.compare (.param ":a") .lt (.path ["at"]))
      (.compare (.path ["device"]) .eq (.param ":d"))
    let item : Item := [("at", .number "5e-1"), ("device", .number "01")]
    (ofCondition s values c = .ok ⟨.number "1.0", some (.gt (.number "3"))⟩ ∧
      NumericValues values ∧ (∀ a ∈ s.attributes, ¬ a.Unfit item) ∧ s.numeric item = true) ∧
    Table.partitionOf (.number "01") = Table.partitionOf (.number "1.0") ∧
    c.eval item values = .ok false := by
  intro s values c item
  have hk : ofCondition s values c = .ok ⟨.number "1.0", some (.gt (.number "3"))⟩ := by
    decide +kernel
  have hvalues : NumericValues values := by decide +kernel
  have hkey : s.extract item = .ok (.number "01", .number "5e-1") := by decide +kernel
  have hitem : ∀ a ∈ s.attributes, ¬ a.Unfit item := fun _ => KeySchema.not_unfit_of_extract hkey
  have hn : s.numeric item = true := by decide +kernel
  obtain ⟨v, sk, b, hv, hx, heval, hiff, -⟩ := eval_eq_lookup s values c _ item hk hvalues hitem hn
  have hpartition : Table.partitionOf (.number "01") = Table.partitionOf (.number "1.0") := by
    decide +kernel
  refine ⟨⟨hk, hvalues, hitem, hn⟩, hpartition, ?_⟩
  obtain ⟨-, rfl⟩ := Prod.mk.inj (Except.ok.inj (hx.symm.trans hkey))
  have hbelow : (SortCondition.gt (.number "3")).holds (.number "5e-1") = false := by
    decide +kernel
  cases b with
  | false => exact heval
  | true =>
      have hholds := (hiff.mp rfl).2 _ rfl
      rw [hbelow] at hholds
      cases hholds

end KeyCondition

end ItemStore
