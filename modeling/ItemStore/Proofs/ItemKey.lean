import ItemStore.Proofs.KeyValue
import ItemStore.Proofs.OrderedMap

/-!
# The key that an item carries

`KeySchema.key?` says what the key of an item stands for, if the item has every key attribute
with its declared type.  `KeySchema.extract` succeeds on the same items and returns keys that
stand for the same (`extract_eq_ok_iff`, `key?_of_extract`).  The key attributes cut out of an
item carry the whole key of the item (`extract_keyOf`).
-/

namespace ItemStore

/-- What a full key stands for: the partition key, and the sort key or its absence. -/
abbrev KeyClass := KeyValue × KeyValue

namespace KeyAttribute

variable {a : KeyAttribute} {item : Item} {k : SortKey}

/-- The item lacks the attribute, or has it with another type. -/
def Unfit (a : KeyAttribute) (item : Item) : Prop :=
  NameMap.get? item a.name = none ∨
    ∃ v, NameMap.get? item a.name = some v ∧ v.kind ≠ a.type.kind

/-- What the item carries under the attribute, if it has it with the declared type. -/
def value? (a : KeyAttribute) (item : Item) : Option KeyValue :=
  match NameMap.get? item a.name with
  | some v => if v.kind = a.type.kind then some (SortKey.ofValue v).value else none
  | none => none

/-- Whether the text that the item has under a number attribute is a number. -/
def numeric (a : KeyAttribute) (item : Item) : Bool :=
  match a.type, NameMap.get? item a.name with
  | .number, some (.number n) => Decimal.isNumber n
  | _, _ => true

theorem check_eq_ok_iff {v : Value} :
    a.check v = .ok k ↔ v.kind = a.type.kind ∧ k = SortKey.ofValue v := by
  obtain ⟨name, type⟩ := a
  cases type <;> cases v <;>
    simp [check, Value.kind, ScalarType.kind, SortKey.ofValue, eq_comm]

theorem read_eq_ok_iff :
    a.read item = .ok k ↔
      ∃ v, NameMap.get? item a.name = some v ∧ v.kind = a.type.kind ∧ k = SortKey.ofValue v := by
  unfold read
  cases NameMap.get? item a.name with
  | none => simp
  | some v => simp [check_eq_ok_iff]

theorem value?_eq_some_iff {q : KeyValue} :
    a.value? item = some q ↔ ∃ k, a.read item = .ok k ∧ k.value = q := by
  simp only [read_eq_ok_iff, value?]
  cases NameMap.get? item a.name with
  | none => simp
  | some v => by_cases h : v.kind = a.type.kind <;> simp [h]

theorem read_eq_error_iff : (∃ e, a.read item = .error e) ↔ a.Unfit item := by
  cases h : a.read item with
  | ok k =>
      obtain ⟨v, hv, hkind, -⟩ := read_eq_ok_iff.mp h
      simp [Unfit, hv, hkind]
  | error e =>
      refine ⟨?_, fun _ => ⟨e, rfl⟩⟩
      intro _
      cases hv : NameMap.get? item a.name with
      | none => exact Or.inl hv
      | some v =>
          refine Or.inr ⟨v, hv, ?_⟩
          intro hkind
          rw [read_eq_ok_iff.mpr ⟨v, hv, hkind, rfl⟩] at h
          cases h

theorem not_unfit_iff :
    ¬ a.Unfit item ↔ ∃ v, NameMap.get? item a.name = some v ∧ v.kind = a.type.kind := by
  cases hv : NameMap.get? item a.name with
  | none => simp [Unfit, hv]
  | some v => simp [Unfit, hv]

theorem numeric_of_read (hn : a.numeric item = true) (h : a.read item = .ok k) :
    k.numeric = true := by
  obtain ⟨v, hv, hkind, rfl⟩ := read_eq_ok_iff.mp h
  obtain ⟨name, type⟩ := a
  cases v with
  | number n =>
      cases type with
      | number =>
          simp only [numeric, hv] at hn
          exact hn
      | string | binary => cases hkind
  | _ => rfl

theorem ne_absent_of_read (h : a.read item = .ok k) : k ≠ .absent := by
  obtain ⟨v, -, hkind, rfl⟩ := read_eq_ok_iff.mp h
  obtain ⟨name, type⟩ := a
  cases type <;> cases v <;> simp [SortKey.ofValue] <;> cases hkind

/-- Reading an attribute looks at nothing else of the item. -/
theorem read_congr {other : Item}
    (h : NameMap.get? item a.name = NameMap.get? other a.name) : a.read item = a.read other := by
  simp only [read, h]

end KeyAttribute

namespace KeySchema

variable {s : KeySchema} {item : Item} {pk sk : SortKey}

/-- The attributes of the key. -/
def attributes (s : KeySchema) : List KeyAttribute := s.partition :: s.sort.toList

theorem names_eq_map (s : KeySchema) : s.names = s.attributes.map (·.name) := by
  rw [names, attributes]
  cases s.sort <;> rfl

theorem name_mem_names {a : KeyAttribute} (ha : a ∈ s.attributes) : a.name ∈ s.names :=
  names_eq_map s ▸ List.mem_map_of_mem ha

/-- What the sort key of the item stands for, if the item carries one where it must. -/
def sortValue? (s : KeySchema) (item : Item) : Option KeyValue :=
  match s.sort with
  | some a => a.value? item
  | none => some .absent

/-- What the key of the item stands for, if the item carries every key attribute. -/
def key? (s : KeySchema) (item : Item) : Option KeyClass :=
  (s.partition.value? item).bind fun p => (s.sortValue? item).map fun q => (p, q)

/-- Whether the texts that the item has under number attributes of the key are numbers. -/
def numeric (s : KeySchema) (item : Item) : Bool := s.attributes.all fun a => a.numeric item

/-- The sort key of an item, where the schema has one. -/
def readSort (s : KeySchema) (item : Item) : Except KeyError SortKey :=
  match s.sort with
  | some a => a.read item
  | none => .ok .absent

theorem extract_eq_bind :
    s.extract item = s.partition.read item >>= fun pk =>
      s.readSort item >>= fun sk => .ok (pk, sk) := by
  unfold extract readSort
  cases s.sort <;> rfl

theorem extract_eq_ok_iff :
    s.extract item = .ok (pk, sk) ↔ s.partition.read item = .ok pk ∧ s.readSort item = .ok sk := by
  rw [extract_eq_bind]
  cases s.partition.read item with
  | error e => simp [bind, Except.bind]
  | ok p => cases s.readSort item <;> simp [bind, Except.bind]

theorem sortValue?_eq_some_iff {q : KeyValue} :
    s.sortValue? item = some q ↔ ∃ sk, s.readSort item = .ok sk ∧ sk.value = q := by
  unfold readSort sortValue?
  cases s.sort with
  | some a => exact KeyAttribute.value?_eq_some_iff
  | none => simp [SortKey.value]

/-- An item carries a key exactly if its key can be read, and both stand for the same. -/
theorem key?_eq_some_iff {p q : KeyValue} :
    s.key? item = some (p, q) ↔
      ∃ pk sk, s.extract item = .ok (pk, sk) ∧ pk.value = p ∧ sk.value = q := by
  simp only [extract_eq_ok_iff, key?, Option.bind_eq_some_iff, Option.map_eq_some_iff,
    Prod.mk.injEq, KeyAttribute.value?_eq_some_iff, sortValue?_eq_some_iff]
  constructor
  · rintro ⟨p', ⟨pk, hpk, rfl⟩, q', ⟨sk, hsk, rfl⟩, rfl, rfl⟩
    exact ⟨pk, sk, ⟨hpk, hsk⟩, rfl, rfl⟩
  · rintro ⟨pk, sk, ⟨hpk, hsk⟩, rfl, rfl⟩
    exact ⟨_, ⟨pk, hpk, rfl⟩, _, ⟨sk, hsk, rfl⟩, rfl, rfl⟩

theorem key?_of_extract (h : s.extract item = .ok (pk, sk)) :
    s.key? item = some (pk.value, sk.value) :=
  key?_eq_some_iff.mpr ⟨pk, sk, h, rfl, rfl⟩

theorem sortValue?_of_key? {p q : KeyValue} (h : s.key? item = some (p, q)) :
    s.sortValue? item = some q := by
  obtain ⟨pk, sk, hx, rfl, rfl⟩ := key?_eq_some_iff.mp h
  exact sortValue?_eq_some_iff.mpr ⟨sk, (extract_eq_ok_iff.mp hx).2, rfl⟩

theorem exists_extract_of_key? {k : KeyClass} (h : s.key? item = some k) :
    ∃ pk sk, s.extract item = .ok (pk, sk) ∧ k = (pk.value, sk.value) := by
  obtain ⟨p, q⟩ := k
  obtain ⟨pk, sk, hx, rfl, rfl⟩ := key?_eq_some_iff.mp h
  exact ⟨pk, sk, hx, rfl⟩

theorem readSort_eq_error_iff :
    (∃ e, s.readSort item = .error e) ↔ ∃ a ∈ s.sort, a.Unfit item := by
  unfold readSort
  cases s.sort with
  | some a => simp [KeyAttribute.read_eq_error_iff]
  | none => simp

/-- An item has no key exactly if it lacks a key attribute or has one with another type. -/
theorem extract_eq_error_iff :
    (∃ e, s.extract item = .error e) ↔ ∃ a ∈ s.attributes, a.Unfit item := by
  have hattributes : (∃ a ∈ s.attributes, a.Unfit item) ↔
      s.partition.Unfit item ∨ ∃ a ∈ s.sort, a.Unfit item := by
    simp [attributes]
  rw [hattributes, ← KeyAttribute.read_eq_error_iff, ← readSort_eq_error_iff, extract_eq_bind]
  cases s.partition.read item with
  | error e => simp [bind, Except.bind]
  | ok pk => cases s.readSort item <;> simp [bind, Except.bind]

theorem not_unfit_of_extract (h : s.extract item = .ok (pk, sk)) {a : KeyAttribute}
    (ha : a ∈ s.attributes) : ¬ a.Unfit item := by
  intro hunfit
  obtain ⟨e, he⟩ := extract_eq_error_iff.mpr ⟨a, ha, hunfit⟩
  rw [h] at he
  cases he

theorem key?_eq_none_iff : s.key? item = none ↔ ∃ a ∈ s.attributes, a.Unfit item := by
  rw [← extract_eq_error_iff]
  cases hx : s.extract item with
  | error e =>
      refine ⟨fun _ => ⟨e, rfl⟩, fun _ => Option.eq_none_iff_forall_ne_some.mpr ?_⟩
      intro k hk
      obtain ⟨pk, sk, hok, -⟩ := exists_extract_of_key? hk
      rw [hx] at hok
      cases hok
  | ok k => simp [key?_of_extract hx]

theorem numeric_of_extract (hn : s.numeric item = true) (h : s.extract item = .ok (pk, sk)) :
    pk.numeric = true ∧ sk.numeric = true := by
  obtain ⟨hpk, hsk⟩ := extract_eq_ok_iff.mp h
  rw [numeric, List.all_eq_true] at hn
  refine ⟨KeyAttribute.numeric_of_read (hn _ List.mem_cons_self) hpk, ?_⟩
  unfold readSort at hsk
  cases hs : s.sort with
  | some a =>
      rw [hs] at hsk
      exact KeyAttribute.numeric_of_read (hn a (by simp [attributes, hs])) hsk
  | none =>
      rw [hs] at hsk
      cases hsk
      rfl

/-- An item that has a key has all attributes of the key. -/
theorem isSome_of_extract (h : s.extract item = .ok (pk, sk)) {name : String}
    (hname : name ∈ s.names) : (NameMap.get? item name).isSome = true := by
  obtain ⟨hpk, hsk⟩ := extract_eq_ok_iff.mp h
  have hread : ∀ {a : KeyAttribute} {k : SortKey}, a.read item = .ok k →
      (NameMap.get? item a.name).isSome = true := by
    intro a k hk
    obtain ⟨v, hv, -⟩ := KeyAttribute.read_eq_ok_iff.mp hk
    rw [hv]
    rfl
  rcases List.mem_cons.mp hname with rfl | hname
  · exact hread hpk
  · obtain ⟨a, ha, rfl⟩ := Option.map_eq_some_iff.mp (Option.mem_toList.mp hname)
    rw [readSort, ha] at hsk
    exact hread hsk

/-- The key depends on the key attributes only. -/
theorem extract_congr {other : Item}
    (h : ∀ name ∈ s.names, NameMap.get? item name = NameMap.get? other name) :
    s.extract item = s.extract other := by
  have hpk := KeyAttribute.read_congr (h s.partition.name List.mem_cons_self)
  have hsk : s.readSort item = s.readSort other := by
    unfold readSort
    cases hs : s.sort with
    | some a => exact KeyAttribute.read_congr (h a.name (by simp [names, hs]))
    | none => rfl
  rw [extract_eq_bind, extract_eq_bind, hpk, hsk]

/-! ## The key attributes of an item -/

theorem get?_keyOf (s : KeySchema) (item : Item) (name : String) :
    NameMap.get? (s.keyOf item) name =
      if name ∈ s.names then NameMap.get? item name else none :=
  NameMap.get?_restrict item s.names name

/-- The key attributes carry the key of the item. -/
theorem extract_keyOf (s : KeySchema) (item : Item) :
    s.extract (s.keyOf item) = s.extract item :=
  extract_congr fun name hname => by rw [get?_keyOf, if_pos hname]

end KeySchema

end ItemStore
