import ItemStore.Proofs.ItemKey
import Mathlib.Data.List.Nodup

/-!
# What a put does to a table

`Table.Sound` holds of the empty table and is kept by every put, whatever the items are: each
item sits in the partition of its own partition key, under an entry key that stands for its own
sort key, no partition occurs twice, and the count is the number of items.  The order of a
partition is promised where the entry keys are numbers if they are of the number type; it is the
only part that needs the texts to be numbers, and it is kept because a put never removes an entry
key, not even one that it replaces the item of.

On such tables `Table.find` after a put is the update of a function at one point
(`Sound.find_putAt`).
-/

namespace ItemStore.Table

variable {t t' : Table} {item : Item} {previous : Option Item} {pk sk : SortKey}

/-- The item under a key. -/
def find (t : Table) (pk sk : SortKey) : Option Item :=
  OrderedMap.find? SortKey.compare sk (t.partition pk.toValue)

/-- The number texts in the entry keys of a partition are numbers. -/
def NumericKeys (p : Partition) : Prop := ∀ e ∈ p, e.1.numeric = true

/-- The entries of a partition in strictly increasing order. -/
abbrev Ordered (p : Partition) : Prop := OrderedMap.Ascending SortKey.value KeyValue.compare p

/-- What holds of every table. -/
structure Sound (t : Table) : Prop where
  nodup : (t.partitions.map (·.1)).Nodup
  placed : ∀ p ∈ t.partitions, ∀ e ∈ p.2, ∃ pk sk, t.schema.extract e.2 = .ok (pk, sk) ∧
    partitionOf pk.toValue = p.1 ∧ e.1.value = sk.value
  ordered : ∀ p ∈ t.partitions, NumericKeys p.2 → Ordered p.2
  counted : t.count = t.items.length

theorem sound_empty (schema : KeySchema) : (empty schema).Sound where
  nodup := List.nodup_nil
  placed := fun _ h => absurd h List.not_mem_nil
  ordered := fun _ h => absurd h List.not_mem_nil
  counted := rfl

/-! ## Partitions -/

section Partitions

variable {v w : Value} {p : Partition} {ps : List (Value × Partition)}

/-- The partition under a spelling. -/
def partitionAt (ps : List (Value × Partition)) (v : Value) : Partition :=
  match ps.find? fun p => p.1 == v with
  | some p => p.2
  | none => []

theorem partition_eq (t : Table) (v : Value) :
    t.partition v = partitionAt t.partitions (partitionOf v) := rfl

theorem partitionAt_cons (q : Value × Partition) :
    partitionAt (q :: ps) v = if q.1 = v then q.2 else partitionAt ps v := by
  unfold partitionAt
  by_cases h : q.1 = v
  · rw [List.find?_cons_of_pos (by simpa using h), if_pos h]
  · rw [List.find?_cons_of_neg (by simpa using h), if_neg h]

theorem partitionAt_setPartition :
    partitionAt (setPartition v p ps) w = if w = v then p else partitionAt ps w := by
  induction ps with
  | nil =>
      simp only [setPartition, partitionAt_cons, eq_comm (a := v)]
  | cons q rest ih =>
      obtain ⟨u, r⟩ := q
      simp only [setPartition]
      by_cases huv : u = v
      · subst huv
        simp only [if_pos, partitionAt_cons, eq_comm (a := u)]
        split <;> rfl
      · rw [if_neg huv, partitionAt_cons, partitionAt_cons, ih]
        by_cases huw : u = w
        · rw [if_pos huw, if_pos huw, if_neg fun h => huv (huw.trans h)]
        · rw [if_neg huw, if_neg huw]

theorem mem_of_partitionAt_ne_nil (h : partitionAt ps v ≠ []) :
    (v, partitionAt ps v) ∈ ps := by
  induction ps with
  | nil => exact absurd rfl h
  | cons q rest ih =>
      rw [partitionAt_cons] at h ⊢
      split at h
      next hq => rw [if_pos hq, ← hq]; exact List.mem_cons_self
      next hq => rw [if_neg hq]; exact List.mem_cons_of_mem _ (ih h)

theorem partitionAt_of_mem (hps : (ps.map (·.1)).Nodup) (h : (v, p) ∈ ps) :
    partitionAt ps v = p := by
  induction ps with
  | nil => cases h
  | cons q rest ih =>
      obtain ⟨hhead, htail⟩ := List.nodup_cons.mp hps
      rw [partitionAt_cons]
      rcases List.mem_cons.mp h with rfl | h
      · rw [if_pos rfl]
      · have hne : q.1 ≠ v := by
          rintro rfl
          exact hhead (List.mem_map.mpr ⟨(q.1, p), h, rfl⟩)
        rw [if_neg hne, ih htail h]

theorem mem_setPartition {q : Value × Partition} (h : q ∈ setPartition v p ps) :
    q = (v, p) ∨ q ∈ ps := by
  induction ps with
  | nil => exact Or.inl (List.mem_singleton.mp h)
  | cons r rest ih =>
      simp only [setPartition] at h
      split at h
      next hr =>
          rcases List.mem_cons.mp h with rfl | h
          · exact Or.inl (hr ▸ rfl)
          · exact Or.inr (List.mem_cons_of_mem _ h)
      next =>
          rcases List.mem_cons.mp h with rfl | h
          · exact Or.inr List.mem_cons_self
          · exact (ih h).imp_right (List.mem_cons_of_mem _)

theorem keys_setPartition :
    (setPartition v p ps).map (·.1) =
      if v ∈ ps.map (·.1) then ps.map (·.1) else ps.map (·.1) ++ [v] := by
  induction ps with
  | nil => simp [setPartition]
  | cons r rest ih =>
      simp only [setPartition]
      by_cases hr : r.1 = v
      · simp [hr]
      · rw [if_neg hr, List.map_cons, ih, List.map_cons]
        by_cases hmem : v ∈ rest.map (·.1)
        · rw [if_pos hmem, if_pos (List.mem_cons_of_mem _ hmem)]
        · rw [if_neg hmem, if_neg fun h => (List.mem_cons.mp h).elim (fun h => hr h.symm) hmem]
          rfl

theorem nodup_setPartition (hps : (ps.map (·.1)).Nodup) :
    ((setPartition v p ps).map (·.1)).Nodup := by
  rw [keys_setPartition]
  split
  · exact hps
  next hmem => exact List.nodup_append.mpr ⟨hps, List.nodup_singleton v, by
      rintro a ha b hb rfl
      exact hmem (List.mem_singleton.mp hb ▸ ha)⟩

/-- The items of some partitions, one partition after the other. -/
def itemsOf (ps : List (Value × Partition)) : List Item := ps.flatMap fun p => p.2.map (·.2)

theorem length_itemsOf_setPartition (v : Value) (p : Partition)
    (ps : List (Value × Partition)) :
    (itemsOf (setPartition v p ps)).length + (partitionAt ps v).length =
      (itemsOf ps).length + p.length := by
  induction ps with
  | nil => simp [setPartition, itemsOf, partitionAt]
  | cons r rest ih =>
      simp only [setPartition, partitionAt_cons]
      by_cases hr : r.1 = v
      · simp only [hr, if_true, itemsOf, List.flatMap_cons, List.length_append, List.length_map]
        omega
      · simp only [itemsOf, if_neg hr, List.flatMap_cons, List.length_append] at ih ⊢
        omega

end Partitions

/-! ## Puts -/

/-- The table after a put of an item with a key. -/
def putAt (t : Table) (pk sk : SortKey) (item : Item) : Table where
  schema := t.schema
  partitions := setPartition (partitionOf pk.toValue)
    (OrderedMap.insert SortKey.compare sk item (t.partition pk.toValue)) t.partitions
  count := if (t.find pk sk).isSome then t.count else t.count + 1

/-- A put of an item that carries a key. -/
theorem put_of_extract (h : t.schema.extract item = .ok (pk, sk)) :
    t.put item = .ok (t.find pk sk, t.putAt pk sk item) := by
  unfold put
  rw [h]
  rfl

theorem put_eq_ok (h : t.put item = .ok (previous, t')) :
    ∃ pk sk, t.schema.extract item = .ok (pk, sk) ∧ previous = t.find pk sk ∧
      t' = t.putAt pk sk item := by
  cases hx : t.schema.extract item with
  | error e =>
      simp only [put, hx] at h
      cases h
  | ok k =>
      obtain ⟨pk, sk⟩ := k
      rw [put_of_extract hx] at h
      cases h
      exact ⟨pk, sk, rfl, rfl, rfl⟩

theorem partition_putAt (v : Value) :
    (t.putAt pk sk item).partition v =
      if partitionOf v = partitionOf pk.toValue then
        OrderedMap.insert SortKey.compare sk item (t.partition pk.toValue)
      else t.partition v := by
  rw [partition_eq, putAt, partitionAt_setPartition]
  rfl

/-- Entry keys stay where they are. -/
theorem exists_mem_partition_putAt {v : Value} {e : SortKey × Item} (he : e ∈ t.partition v) :
    ∃ e' ∈ (t.putAt pk sk item).partition v, e'.1 = e.1 := by
  rw [partition_putAt]
  split
  next hv =>
      rw [partition_eq, hv, ← partition_eq] at he
      exact List.mem_map.mp (OrderedMap.key_mem_insert_of_mem (List.mem_map_of_mem he))
  next => exact ⟨e, he, rfl⟩

/-- An entry of the partition of a key sits in the table. -/
theorem Sound.placed_partition (ht : t.Sound) {v : Value} {e : SortKey × Item}
    (he : e ∈ t.partition v) :
    ∃ pk sk, t.schema.extract e.2 = .ok (pk, sk) ∧ partitionOf pk.toValue = partitionOf v ∧
      e.1.value = sk.value := by
  have hmem := mem_of_partitionAt_ne_nil (List.ne_nil_of_mem he)
  exact ht.placed _ hmem e he

theorem Sound.ordered_partition (ht : t.Sound) {v : Value} (hn : NumericKeys (t.partition v)) :
    Ordered (t.partition v) := by
  by_cases hne : t.partition v = []
  · rw [hne]
    exact List.Pairwise.nil
  · exact ht.ordered _ (mem_of_partitionAt_ne_nil hne) hn

/-- Entry keys stay when an entry is put beside them or in their place, and the key of the new
entry stands for the key that was put. -/
theorem numericKeys_of_insert {p : Partition}
    (h : NumericKeys (OrderedMap.insert SortKey.compare sk item p)) :
    NumericKeys p ∧ sk.numeric = true := by
  constructor
  · intro e he
    have hkey : e.1 ∈ (OrderedMap.insert SortKey.compare sk item p).map (·.1) :=
      OrderedMap.key_mem_insert_of_mem (List.mem_map_of_mem he)
    obtain ⟨e', he', hkey'⟩ := List.mem_map.mp hkey
    exact hkey' ▸ h e' he'
  · obtain ⟨k, hmem, hk⟩ := OrderedMap.exists_mem_insert (c := SortKey.compare) sk item p
    rcases hk with rfl | hk
    · exact h _ hmem
    · rw [SortKey.numeric_eq_of_value_eq ((SortKey.compare_eq_iff _ _).mp hk)]
      exact h _ hmem

theorem agrees_of_numericKeys {p : Partition} (hsk : sk.numeric = true) (hp : NumericKeys p) :
    OrderedMap.Agrees SortKey.compare SortKey.value KeyValue.compare sk p :=
  fun e he => SortKey.compare_eq_compare_value hsk (hp e he)

/-- Every put keeps what holds of tables. -/
theorem Sound.putAt (ht : t.Sound) (h : t.schema.extract item = .ok (pk, sk)) :
    (t.putAt pk sk item).Sound where
  nodup := nodup_setPartition ht.nodup
  placed := by
    intro p hp e he
    rcases mem_setPartition hp with rfl | hp
    · rcases OrderedMap.mem_insert he with ⟨rfl, hkey⟩ | he
      · refine ⟨pk, sk, h, rfl, ?_⟩
        rcases hkey with hkey | hkey
        · rw [hkey]
        · exact ((SortKey.compare_eq_iff _ _).mp hkey).symm
      · exact ht.placed_partition he
    · exact ht.placed p hp e he
  ordered := by
    intro p hp hn
    rcases mem_setPartition hp with rfl | hp
    · obtain ⟨hold, hsk⟩ := numericKeys_of_insert hn
      exact OrderedMap.ascending_insert (agrees_of_numericKeys hsk hold)
        (ht.ordered_partition hold)
    · exact ht.ordered p hp hn
  counted := by
    have hlen := length_itemsOf_setPartition (partitionOf pk.toValue)
      (OrderedMap.insert SortKey.compare sk item (t.partition pk.toValue)) t.partitions
    have hcount : t.count = (itemsOf t.partitions).length := ht.counted
    rw [OrderedMap.length_insert, ← partition_eq] at hlen
    show (if (t.find pk sk).isSome then t.count else t.count + 1)
      = (itemsOf (t.putAt pk sk item).partitions).length
    rw [find, hcount]
    split at hlen
    next hsome =>
        rw [if_pos hsome]
        exact (Nat.add_right_cancel hlen).symm
    next hnone =>
        rw [if_neg hnone]
        simp only [Table.putAt]
        omega

/-! ## Items -/

theorem mem_items {x : Item} : x ∈ t.items ↔ ∃ p ∈ t.partitions, ∃ e ∈ p.2, e.2 = x := by
  simp [items]

theorem mem_items_of_mem_partition {v : Value} {e : SortKey × Item} (he : e ∈ t.partition v) :
    e.2 ∈ t.items :=
  mem_items.mpr ⟨_, mem_of_partitionAt_ne_nil (List.ne_nil_of_mem he), e, he, rfl⟩

theorem mem_items_putAt {x : Item} (h : x ∈ (t.putAt pk sk item).items) :
    x = item ∨ x ∈ t.items := by
  obtain ⟨p, hp, e, he, rfl⟩ := mem_items.mp h
  rcases mem_setPartition hp with rfl | hp
  · rcases OrderedMap.mem_insert he with ⟨hx, -⟩ | he
    · exact Or.inl hx
    · exact Or.inr (mem_items_of_mem_partition he)
  · exact Or.inr (mem_items.mpr ⟨p, hp, e, he, rfl⟩)

/-- The number texts in the keys of the items are numbers. -/
def Numeric (t : Table) : Prop := ∀ x ∈ t.items, t.schema.numeric x = true

instance (t : Table) : Decidable t.Numeric :=
  inferInstanceAs (Decidable (∀ x ∈ t.items, t.schema.numeric x = true))

theorem Sound.numericKeys (ht : t.Sound) (hn : t.Numeric) {p : Value × Partition}
    (hp : p ∈ t.partitions) : NumericKeys p.2 := by
  intro e he
  obtain ⟨pk, sk, hx, -, hvalue⟩ := ht.placed p hp e he
  rw [SortKey.numeric_eq_of_value_eq hvalue]
  exact (KeySchema.numeric_of_extract (hn _ (mem_items.mpr ⟨p, hp, e, he, rfl⟩)) hx).2

theorem Sound.numericKeys_partition (ht : t.Sound) (hn : t.Numeric) (v : Value) :
    NumericKeys (t.partition v) := by
  intro e he
  exact ht.numericKeys hn (mem_of_partitionAt_ne_nil (List.ne_nil_of_mem he)) e he

/-- An entry of a partition stands for the key of its item. -/
theorem Sound.key?_of_mem_partition (ht : t.Sound) (hn : t.Numeric) {v : Value}
    {e : SortKey × Item} (he : e ∈ t.partition v) :
    ∃ pk : SortKey, pk.numeric = true ∧ partitionOf pk.toValue = partitionOf v ∧
      t.schema.key? e.2 = some (pk.value, e.1.value) := by
  obtain ⟨pk, sk, hx, hpart, hvalue⟩ := ht.placed_partition he
  have hpk := (KeySchema.numeric_of_extract (hn _ (mem_items_of_mem_partition he)) hx).1
  exact ⟨pk, hpk, hpart, by rw [KeySchema.key?_of_extract hx, hvalue]⟩

/-- An item sits in its own partition. -/
theorem Sound.exists_mem_partition (ht : t.Sound) {x : Item} (hx : x ∈ t.items) :
    ∃ pk sk key, t.schema.extract x = .ok (pk, sk) ∧ (key, x) ∈ t.partition pk.toValue ∧
      key.value = sk.value := by
  obtain ⟨p, hp, e, he, rfl⟩ := mem_items.mp hx
  obtain ⟨pk, sk, hxk, hpart, hvalue⟩ := ht.placed p hp e he
  refine ⟨pk, sk, e.1, hxk, ?_, hvalue⟩
  rw [partition_eq, hpart, partitionAt_of_mem ht.nodup hp]
  exact he

/-- An item is found under every spelling of its key, and nothing else is. -/
theorem Sound.find_eq_some_iff (ht : t.Sound) (hn : t.Numeric) (hpk : pk.numeric = true)
    (hsk : sk.numeric = true) {x : Item} :
    t.find pk sk = some x ↔ x ∈ t.items ∧ t.schema.key? x = some (pk.value, sk.value) := by
  have hkeys := ht.numericKeys_partition hn pk.toValue
  rw [find, OrderedMap.find?_eq_some_iff (agrees_of_numericKeys hsk hkeys)
    (ht.ordered_partition hkeys)]
  constructor
  · rintro ⟨key, hmem, hkey⟩
    obtain ⟨pk', hpk', hpart, hx⟩ := ht.key?_of_mem_partition hn hmem
    refine ⟨mem_items_of_mem_partition hmem, ?_⟩
    rw [hx, (partitionOf_eq_iff hpk' hpk).mp hpart, hkey]
  · rintro ⟨hmem, hkey⟩
    obtain ⟨pk', sk', key, hx, he, hvalue⟩ := ht.exists_mem_partition hmem
    have hpk' := (KeySchema.numeric_of_extract (hn x hmem) hx).1
    rw [KeySchema.key?_of_extract hx] at hkey
    obtain ⟨hpkv, hskv⟩ := Prod.mk.inj (Option.some.inj hkey)
    rw [partition_eq, (partitionOf_eq_iff hpk' hpk).mpr hpkv, ← partition_eq] at he
    exact ⟨key, he, hvalue.trans hskv⟩

/-- A put changes the table at the key of the item only. -/
theorem Sound.find_putAt (ht : t.Sound) (hn : t.Numeric) (hpk : pk.numeric = true)
    (hsk : sk.numeric = true) {pk' sk' : SortKey} (hpk' : pk'.numeric = true)
    (hsk' : sk'.numeric = true) :
    (t.putAt pk sk item).find pk' sk' =
      if (pk'.value, sk'.value) = (pk.value, sk.value) then some item else t.find pk' sk' := by
  have hp := ht.numericKeys_partition hn pk.toValue
  rw [find, partition_putAt]
  by_cases hpp : partitionOf pk'.toValue = partitionOf pk.toValue
  · have hpv : pk'.value = pk.value := (partitionOf_eq_iff hpk' hpk).mp hpp
    have hsame : t.partition pk'.toValue = t.partition pk.toValue := by
      rw [partition_eq, hpp, partition_eq]
    rw [if_pos hpp, OrderedMap.find?_insert (agrees_of_numericKeys hsk hp)
      (agrees_of_numericKeys hsk' hp) (SortKey.compare_eq_compare_value hsk' hsk), find, hsame]
    simp [hpv]
  · have hpv : pk'.value ≠ pk.value := fun h => hpp ((partitionOf_eq_iff hpk' hpk).mpr h)
    rw [if_neg hpp, if_neg fun h => hpv (Prod.mk.inj h).1, find]

end ItemStore.Table
