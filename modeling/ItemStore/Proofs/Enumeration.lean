import ItemStore.Proofs.Store

/-!
# The order of the partitions does not show

A table may go through its partitions in any order, and in another one each time that it is read.
What a reader gets is the same: a partition is found by its value (`Table.Enumerates.partition_eq`),
and a view is sorted by places that no two items share, so that there is only one way to sort it
(`IndexedTable.Enumerates.viewOf_eq`).  Therefore every request is answered as before
(`Store.Enumerates.query_eq`, `Store.Enumerates.scan_eq`).
-/

namespace ItemStore

namespace Table

variable {t t' : Table}

/-- The same table, whose partitions are in another order. -/
structure Enumerates (t' t : Table) : Prop where
  schema : t'.schema = t.schema
  partitions : t'.partitions.Perm t.partitions
  count : t'.count = t.count

namespace Enumerates

theorem items_perm (h : t'.Enumerates t) : t'.items.Perm t.items := h.partitions.flatMap_right _

theorem sound (h : t'.Enumerates t) (ht : t.Sound) : t'.Sound where
  nodup := (h.partitions.map _).nodup_iff.mpr ht.nodup
  placed := by
    intro p hp e he
    rw [h.schema]
    exact ht.placed p (h.partitions.mem_iff.mp hp) e he
  ordered := fun p hp => ht.ordered p (h.partitions.mem_iff.mp hp)
  counted := by rw [h.count, ht.counted, h.items_perm.length_eq]

theorem numeric (h : t'.Enumerates t) (hn : t.Numeric) : t'.Numeric := by
  intro x hx
  rw [h.schema]
  exact hn x (h.items_perm.mem_iff.mp hx)

/-- A partition is found wherever it stands. -/
theorem partition_eq (h : t'.Enumerates t) (ht : t.Sound) (v : Value) :
    t'.partition v = t.partition v := by
  rw [Table.partition_eq, Table.partition_eq]
  by_cases hnil : partitionAt t.partitions (partitionOf v) = []
  · by_contra hne
    rw [hnil] at hne
    have hmem := h.partitions.mem_iff.mp (mem_of_partitionAt_ne_nil hne)
    exact hne ((partitionAt_of_mem ht.nodup hmem).symm.trans hnil)
  · have hmem := h.partitions.mem_iff.mpr (mem_of_partitionAt_ne_nil hnil)
    exact partitionAt_of_mem (h.sound ht).nodup hmem

theorem query_eq (h : t'.Enumerates t) (ht : t.Sound) : t'.query = t.query := by
  funext c forward limit startKey
  have hstart : t'.startOf startKey = t.startOf startKey := by
    cases startKey with
    | none => rfl
    | some key => rw [startOf, startOf, h.schema]
  rw [query, query, hstart, h.partition_eq ht, h.schema]

end Enumerates

end Table

namespace IndexedTable

variable {t t' : IndexedTable} {index : Option KeySchema}

/-- The same table with the same indexes, whose partitions are in another order. -/
structure Enumerates (t' t : IndexedTable) : Prop where
  table : t'.table.Enumerates t.table
  indexes : t'.indexes = t.indexes

/-- The table with its partitions put in an order. -/
def reorder (order : List (Value × Partition) → List (Value × Partition)) (t : IndexedTable) :
    IndexedTable :=
  ⟨⟨t.table.schema, order t.table.partitions, t.table.count⟩, t.indexes⟩

namespace Enumerates

theorem index_eq (h : t'.Enumerates t) : t'.index = t.index := by
  funext name
  rw [index, index, h.indexes]

theorem positionIn_eq (h : t'.Enumerates t) (index : Option KeySchema) :
    t'.positionIn index = t.positionIn index := by
  funext item
  cases index with
  | none => rw [positionIn, positionIn, h.table.schema]
  | some i => rw [positionIn, positionIn, indexPosition, indexPosition, h.table.schema]

theorem proper (h : t'.Enumerates t) (ht : t.Proper index) : t'.Proper index where
  sound := h.table.sound ht.sound
  numeric := h.table.numeric ht.numeric
  indexNumeric := fun i hi x hx => ht.indexNumeric i hi x (h.table.items_perm.mem_iff.mp hx)

/-- A view is sorted in one way only. -/
theorem viewOf_eq (h : t'.Enumerates t) (ht : t.Proper index) (wanted : Position → Bool) :
    t'.viewOf index wanted = t.viewOf index wanted := by
  refine eq_of_perm_of_asymm View.Before.asymm ?_ ((h.proper ht).ascending_viewOf wanted)
    (ht.ascending_viewOf wanted)
  refine (View.sort_perm _).trans (List.Perm.trans ?_ (View.sort_perm _).symm)
  rw [h.positionIn_eq index]
  exact h.table.items_perm.filterMap _

theorem readIndex_eq (h : t'.Enumerates t) (i : KeySchema) : t'.readIndex i = t.readIndex i := by
  funext view startKey forward limit
  have hposition : t'.indexPosition i = t.indexPosition i := h.positionIn_eq (some i)
  have hkey : t'.indexKeyOf i = t.indexKeyOf i := by
    funext item
    rw [indexKeyOf, indexKeyOf, h.table.schema]
  rw [readIndex_eq_fetch, readIndex_eq_fetch, hposition, hkey]

theorem scan_eq (h : t'.Enumerates t) (ht : t.Proper none) : t'.table.scan = t.table.scan := by
  funext limit startKey
  rw [scan_eq_fetch, scan_eq_fetch, h.viewOf_eq ht, h.table.schema]

end Enumerates

end IndexedTable

namespace Store

variable {s s' : Store}

/-- The same store, whose tables have their partitions in another order. -/
structure Enumerates (s' s : Store) : Prop where
  defaultLimit : s'.defaultLimit = s.defaultLimit
  tables : ∀ name, Option.Rel IndexedTable.Enumerates (NameMap.get? s'.tables name)
    (NameMap.get? s.tables name)

/-- The store with the partitions of each table put in an order. -/
def reorder (order : List (Value × Partition) → List (Value × Partition)) (s : Store) : Store where
  tables := s.tables.map fun e => (e.1, e.2.reorder order)
  defaultLimit := s.defaultLimit

/-- Whatever order the partitions are put in, the store is the same otherwise. -/
theorem enumerates_reorder {order : List (Value × Partition) → List (Value × Partition)}
    (h : ∀ ps, (order ps).Perm ps) (s : Store) : (s.reorder order).Enumerates s where
  defaultLimit := rfl
  tables := by
    intro name
    rw [reorder, NameMap.get?_map]
    cases NameMap.get? s.tables name with
    | none => exact Option.Rel.none
    | some t => exact Option.Rel.some ⟨⟨rfl, h t.table.partitions, rfl⟩, rfl⟩

namespace Enumerates

theorem pageLimit_eq (h : s'.Enumerates s) : s'.pageLimit = s.pageLimit := by
  funext limit
  cases limit with
  | none => rw [pageLimit, pageLimit, h.defaultLimit]
  | some n => rfl

/-- Either both stores have the table, or neither has. -/
theorem table_cases (h : s'.Enumerates s) (name : String) :
    (∃ t' t, s'.table name = .ok t' ∧ s.table name = .ok t ∧ t'.Enumerates t) ∨
      ∃ e, s'.table name = .error e ∧ s.table name = .error e := by
  have hrel := h.tables name
  rw [table, table]
  generalize NameMap.get? s'.tables name = o', NameMap.get? s.tables name = o at hrel
  cases hrel with
  | some ht => exact Or.inl ⟨_, _, rfl, rfl, ht⟩
  | none => exact Or.inr ⟨_, rfl, rfl⟩

theorem scan_eq (h : s'.Enumerates s) (hs : s.Sound) {r : Scan}
    (hn : ∀ t, s.table r.table = .ok t → t.Numeric) : s'.scan r = s.scan r := by
  rw [scan, scan, h.pageLimit_eq]
  rcases h.table_cases r.table with ⟨t', t, ht', ht, henum⟩ | ⟨e, he', he⟩
  · have hproper : ∀ {name index}, t.named name = some index → t.Proper index :=
      fun hindex => hs.proper_of_table ht (hn t ht) hindex
    rw [ht', ht]
    simp only [bind, Except.bind]
    cases r.index with
    | none =>
        have hnamed : t.named none = some none := rfl
        rw [henum.scan_eq (hproper hnamed)]
    | some name =>
        simp only [henum.index_eq]
        cases hi : t.index name with
        | error e => rfl
        | ok i =>
            have hview : t'.indexView i (fun _ => true) = t.indexView i fun _ => true :=
              henum.viewOf_eq (hproper (IndexedTable.named_of_index hi)) _
            simp only [henum.readIndex_eq, hview]
  · rw [he', he]

theorem query_eq (h : s'.Enumerates s) (hs : s.Sound) {r : Query}
    (hn : ∀ t, s.table r.table = .ok t → t.Numeric) : s'.query r = s.query r := by
  rw [query, query, h.pageLimit_eq]
  rcases h.table_cases r.table with ⟨t', t, ht', ht, henum⟩ | ⟨e, he', he⟩
  · rw [ht', ht]
    simp only [bind, Except.bind]
    cases r.index with
    | none => rw [henum.table.query_eq (hs _ (mem_of_table ht)), henum.table.schema]
    | some name =>
        simp only [henum.index_eq]
        cases hi : t.index name with
        | error e => rfl
        | ok i =>
            have hview : ∀ wanted, t'.indexView i wanted = t.indexView i wanted :=
              henum.viewOf_eq (hs.proper_of_table ht (hn t ht) (IndexedTable.named_of_index hi))
            simp only [henum.readIndex_eq, hview]
  · rw [he', he]

end Enumerates

end Store

end ItemStore
