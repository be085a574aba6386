import ItemStore.Proofs.IndexPages
import ItemStore.Store

/-!
# What holds of every store

A store is reached from an empty one by creating tables, putting items and loading items; a load
that fails keeps the items before the one that it failed at.  Each of its tables is sound,
`Reachable.sound`, since every step changes one table at most, and that by puts.
-/

namespace ItemStore

/-- The table named, or an index of the table. -/
def IndexedTable.named (t : IndexedTable) : Option String → Option (Option KeySchema)
  | none => some none
  | some name => (NameMap.get? t.indexes name).map some

/-- The number texts in the keys of all items are numbers, in the table and in its indexes. -/
def IndexedTable.Numeric (t : IndexedTable) : Prop :=
  ∀ x ∈ t.table.items, t.table.schema.numeric x = true ∧ ∀ i ∈ t.indexes, i.2.numeric x = true

instance (t : IndexedTable) : Decidable t.Numeric :=
  inferInstanceAs (Decidable (∀ x ∈ t.table.items,
    t.table.schema.numeric x = true ∧ ∀ i ∈ t.indexes, i.2.numeric x = true))

theorem IndexedTable.named_of_index {t : IndexedTable} {name : String} {i : KeySchema}
    (h : t.index name = .ok i) : t.named (some name) = some (some i) := by
  rw [index] at h
  split at h
  next j hj =>
      cases h
      rw [named, hj]
      rfl
  next => cases h

namespace Store

variable {s s' : Store}

/-- The stores that are reached from an empty one. -/
inductive Reachable : Store → Prop
  | empty (defaultLimit : Option Nat) : Reachable (Store.empty defaultLimit)
  | createTable {s s' : Store} {r : CreateTable} {a : TableCreated} :
      Reachable s → s.createTable r = .ok (a, s') → Reachable s'
  | putItem {s s' : Store} {r : PutItem} {a : ItemPut} :
      Reachable s → s.putItem r = .ok (a, s') → Reachable s'
  | load {s : Store} {name text : String} : Reachable s → Reachable (s.load name text).2

/-- The number texts in the keys of all items are numbers, in the tables and in their indexes. -/
def Numeric (s : Store) : Prop :=
  ∀ e ∈ s.tables, ∀ x ∈ e.2.table.items, e.2.table.schema.numeric x = true ∧
    ∀ i ∈ e.2.indexes, i.2.numeric x = true

instance (s : Store) : Decidable s.Numeric :=
  inferInstanceAs (Decidable (∀ e ∈ s.tables, ∀ x ∈ e.2.table.items,
    e.2.table.schema.numeric x = true ∧ ∀ i ∈ e.2.indexes, i.2.numeric x = true))

/-- All tables are sound. -/
def Sound (s : Store) : Prop := ∀ e ∈ s.tables, e.2.table.Sound

theorem table_eq_ok_iff {name : String} {t : IndexedTable} :
    s.table name = .ok t ↔ NameMap.get? s.tables name = some t := by
  rw [table]
  cases NameMap.get? s.tables name <;> simp

theorem mem_of_table {name : String} {t : IndexedTable} (h : s.table name = .ok t) :
    (name, t) ∈ s.tables :=
  NameMap.mem_of_get? (table_eq_ok_iff.mp h)

/-- Setting one table to a sound one keeps a store sound. -/
theorem Sound.set (h : s.Sound) {name : String} {t : IndexedTable} (ht : t.table.Sound) :
    Sound { s with tables := NameMap.set s.tables name t } := by
  intro e he
  rcases NameMap.mem_set he with rfl | he
  · exact ht
  · exact h e he

theorem sound_putAll {t : Table} (ht : t.Sound) (items : List Item) : (putAll t items).2.Sound := by
  induction items generalizing t with
  | nil => exact ht
  | cons item rest ih =>
      rw [putAll]
      split
      next previous t' hput =>
          obtain ⟨pk, sk, hx, -, rfl⟩ := Table.put_eq_ok hput
          exact ih (ht.putAt hx)
      next => exact ht

theorem Sound.load (h : s.Sound) (name text : String) : (s.load name text).2.Sound := by
  rw [Store.load]
  split
  · exact h
  next items _ =>
      split
      · exact h
      next t ht => exact h.set (sound_putAll (h _ (mem_of_table ht)) items)

theorem Reachable.sound (h : s.Reachable) : s.Sound := by
  induction h with
  | empty defaultLimit => exact fun e he => (List.not_mem_nil he).elim
  | createTable _ hcreate ih =>
      rw [Store.createTable] at hcreate
      split at hcreate
      · cases hcreate
      · obtain ⟨schema, -, hcreate⟩ := bind_eq_ok_iff.mp hcreate
        obtain ⟨indexes, -, hcreate⟩ := bind_eq_ok_iff.mp hcreate
        split at hcreate
        · cases hcreate
        · cases hcreate
          exact ih.set (Table.sound_empty schema)
  | putItem _ hput ih =>
      obtain ⟨t, ht, hput⟩ := bind_eq_ok_iff.mp hput
      obtain ⟨⟨previous, table⟩, htable, hput⟩ := bind_eq_ok_iff.mp hput
      cases hput
      obtain ⟨pk, sk, hx, -, rfl⟩ := Table.put_eq_ok (mapError_eq_ok_iff.mp htable)
      exact ih.set ((ih _ (mem_of_table ht)).putAt hx)
  | load _ ih => exact ih.load _ _

/-- One put into a store.  A put that fails leaves the store as it is. -/
def attempt (s : Store) (r : PutItem) : Store :=
  match s.putItem r with
  | .ok (_, s') => s'
  | .error _ => s

/-- The store after some puts into a table. -/
def puts (s : Store) (name : String) (items : List Item) : Store :=
  items.foldl (fun s item => s.attempt ⟨name, item⟩) s

theorem Reachable.attempt (h : s.Reachable) (r : PutItem) : (s.attempt r).Reachable := by
  rw [Store.attempt]
  split
  next hput => exact h.putItem hput
  next => exact h

theorem Reachable.puts (h : s.Reachable) (name : String) (items : List Item) :
    (s.puts name items).Reachable := by
  rw [Store.puts]
  induction items generalizing s with
  | nil => exact h
  | cons item items ih => exact ih (h.attempt _)

/-- A table of a sound store, and every index of it, can be read in the order of its keys. -/
theorem Sound.proper_of_table (h : s.Sound) {name : String} {t : IndexedTable}
    (ht : s.table name = .ok t) (hn : t.Numeric) {indexName : Option String}
    {index : Option KeySchema} (hindex : t.named indexName = some index) : t.Proper index where
  sound := h _ (mem_of_table ht)
  numeric := fun x hx => (hn x hx).1
  indexNumeric := by
    intro i hi x hx
    cases indexName with
    | none =>
        cases hindex
        cases hi
    | some n =>
        obtain ⟨j, hj, rfl⟩ := Option.map_eq_some_iff.mp hindex
        cases hi
        exact (hn x hx).2 _ (NameMap.mem_of_get? hj)

theorem Sound.proper (h : s.Sound) (hn : s.Numeric) {name : String} {t : IndexedTable}
    (ht : s.table name = .ok t) {indexName : Option String} {index : Option KeySchema}
    (hindex : t.named indexName = some index) : t.Proper index :=
  h.proper_of_table ht (hn _ (mem_of_table ht)) hindex

theorem length_items_le_itemTotal {name : String} {t : IndexedTable} (ht : s.table name = .ok t) :
    t.table.items.length ≤ s.itemTotal := by
  rw [itemTotal, List.length_flatMap]
  exact List.le_sum_of_mem (List.mem_map.mpr ⟨_, mem_of_table ht, rfl⟩)

end Store

end ItemStore
