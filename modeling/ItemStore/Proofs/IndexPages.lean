import ItemStore.Proofs.KeyCondition
import ItemStore.Proofs.PartitionPages
import ItemStore.Proofs.View
import ItemStore.Store

/-!
# Pages of tables and indexes

A table and an index are read in the order of the places of their items: the table key, and for
an index the index key before it.  An index shows the items that have such a place.  No two
items of a table have the same key, and so no two items have the same place; and the key
attributes that a page ends with carry the place of its last item.  The pages of a scan and of an
index therefore serve the items that are shown (`Proper.serves_viewOf`).
-/

namespace ItemStore

theorem KeySchema.position_eq_ok_iff {s : KeySchema} {item : Item} {p : Position} :
    s.position item = .ok p ↔ ∃ pk sk, s.extract item = .ok (pk, sk) ∧ p = [pk, sk] := by
  rw [position, bind_eq_ok_iff]
  constructor
  · rintro ⟨⟨pk, sk⟩, hx, h⟩
    cases h
    exact ⟨pk, sk, hx, rfl⟩
  · rintro ⟨pk, sk, hx, rfl⟩
    exact ⟨(pk, sk), hx, rfl⟩

/-- No two items of a table have the same key. -/
theorem Table.Sound.pairwise_key? {t : Table} (ht : t.Sound) (hn : t.Numeric) :
    t.items.Pairwise fun x y => t.schema.key? x ≠ t.schema.key? y := by
  refine List.pairwise_flatMap.mpr ⟨?_, ?_⟩
  · intro p hp
    -- inside a partition the sort keys differ
    have hordered := ht.ordered p hp (ht.numericKeys hn hp)
    refine List.pairwise_map.mpr (hordered.imp_of_mem ?_)
    intro a b ha hb hlt heq
    obtain ⟨pk, sk, hx, -, hvalue⟩ := ht.placed p hp a ha
    obtain ⟨pk', sk', hx', -, hvalue'⟩ := ht.placed p hp b hb
    rw [KeySchema.key?_of_extract hx, KeySchema.key?_of_extract hx', ← hvalue, ← hvalue'] at heq
    exact OrderedMap.ne_of_ord_lt hlt (Prod.mk.inj (Option.some.inj heq)).2
  · -- and between two partitions the partition keys
    refine (List.pairwise_map.mp ht.nodup).imp_of_mem ?_
    intro p q hp hq hne x hx y hy heq
    apply hne
    obtain ⟨a, ha, rfl⟩ := List.mem_map.mp hx
    obtain ⟨b, hb, rfl⟩ := List.mem_map.mp hy
    obtain ⟨pk, sk, hxa, hpart, -⟩ := ht.placed p hp a ha
    obtain ⟨pk', sk', hxb, hpart', -⟩ := ht.placed q hq b hb
    rw [KeySchema.key?_of_extract hxa, KeySchema.key?_of_extract hxb] at heq
    have hpk := (KeySchema.numeric_of_extract (hn _ (mem_items.mpr ⟨p, hp, a, ha, rfl⟩)) hxa).1
    have hpk' := (KeySchema.numeric_of_extract (hn _ (mem_items.mpr ⟨q, hq, b, hb, rfl⟩)) hxb).1
    rw [← hpart, ← hpart', partitionOf_eq_iff hpk hpk']
    exact (Prod.mk.inj (Option.some.inj heq)).1

namespace IndexedTable

variable {t : IndexedTable} {index : Option KeySchema} {item : Item} {p : Position}

/-- The place of an item in the table, or in an index: the index key before the table key. -/
def place (t : IndexedTable) (index : Option KeySchema) (item : Item) : Option Place :=
  match index with
  | none => (t.table.schema.key? item).map fun k => [k.1, k.2]
  | some i => (i.key? item).bind fun j =>
      (t.table.schema.key? item).map fun k => [j.1, j.2, k.1, k.2]

/-- The position of an item in the table, or in an index. -/
def positionIn (t : IndexedTable) (index : Option KeySchema) (item : Item) :
    Except KeyError Position :=
  match index with
  | none => t.table.schema.position item
  | some i => t.indexPosition i item

/-- The key that a page of the table, or of an index, ends with. -/
def keyIn (t : IndexedTable) (index : Option KeySchema) (item : Item) : Item :=
  match index with
  | none => t.table.schema.keyOf item
  | some i => t.indexKeyOf i item

/-- The items that the table, or an index, shows and whose position is wanted, in order. -/
def viewOf (t : IndexedTable) (index : Option KeySchema) (wanted : Position → Bool) : View :=
  View.sort (t.table.view fun item =>
    match t.positionIn index item with
    | .ok p => if wanted p then some p else none
    | .error _ => none)

/-- What holds of the table and an index of it where the numbers in their keys are numbers. -/
structure Proper (t : IndexedTable) (index : Option KeySchema) : Prop where
  sound : t.table.Sound
  numeric : t.table.Numeric
  indexNumeric : ∀ i ∈ index, ∀ x ∈ t.table.items, i.numeric x = true

theorem positionIn_eq_ok_iff :
    t.positionIn index item = .ok p ↔
      ∃ pk sk, t.table.schema.extract item = .ok (pk, sk) ∧
        match index with
        | none => p = [pk, sk]
        | some i => ∃ ipk isk, i.extract item = .ok (ipk, isk) ∧ p = [ipk, isk, pk, sk] := by
  cases index with
  | none => exact KeySchema.position_eq_ok_iff
  | some i =>
      simp only [positionIn, indexPosition, bind_eq_ok_iff, KeySchema.position_eq_ok_iff,
        Except.ok.injEq]
      constructor
      · rintro ⟨_, ⟨ipk, isk, hi, rfl⟩, _, ⟨pk, sk, hx, rfl⟩, rfl⟩
        exact ⟨pk, sk, hx, ipk, isk, hi, rfl⟩
      · rintro ⟨pk, sk, hx, ipk, isk, hi, rfl⟩
        exact ⟨_, ⟨ipk, isk, hi, rfl⟩, _, ⟨pk, sk, hx, rfl⟩, rfl⟩

/-- An item has a place exactly if it has a position, and the position stands for it. -/
theorem place_eq_some_iff {q : Place} :
    t.place index item = some q ↔ ∃ p, t.positionIn index item = .ok p ∧ p.place = q := by
  cases index with
  | none =>
      simp only [place, Option.map_eq_some_iff, Prod.exists, KeySchema.key?_eq_some_iff,
        positionIn_eq_ok_iff]
      constructor
      · rintro ⟨_, _, ⟨pk, sk, hx, rfl, rfl⟩, rfl⟩
        exact ⟨_, ⟨pk, sk, hx, rfl⟩, rfl⟩
      · rintro ⟨_, ⟨pk, sk, hx, rfl⟩, rfl⟩
        exact ⟨_, _, ⟨pk, sk, hx, rfl, rfl⟩, rfl⟩
  | some i =>
      simp only [place, Option.bind_eq_some_iff, Option.map_eq_some_iff, Prod.exists,
        KeySchema.key?_eq_some_iff, positionIn_eq_ok_iff]
      constructor
      · rintro ⟨_, _, ⟨ipk, isk, hi, rfl, rfl⟩, _, _, ⟨pk, sk, hx, rfl, rfl⟩, rfl⟩
        exact ⟨_, ⟨pk, sk, hx, ipk, isk, hi, rfl⟩, rfl⟩
      · rintro ⟨_, ⟨pk, sk, hx, ipk, isk, hi, rfl⟩, rfl⟩
        exact ⟨_, _, ⟨ipk, isk, hi, rfl, rfl⟩, _, _, ⟨pk, sk, hx, rfl, rfl⟩, rfl⟩

theorem Proper.numeric_position (h : t.Proper index) (hitem : item ∈ t.table.items)
    (hp : t.positionIn index item = .ok p) : p.numeric = true := by
  obtain ⟨pk, sk, hx, hrest⟩ := positionIn_eq_ok_iff.mp hp
  obtain ⟨hpk, hsk⟩ := KeySchema.numeric_of_extract (h.numeric item hitem) hx
  cases index with
  | none =>
      obtain rfl : p = [pk, sk] := hrest
      simp [Position.numeric, hpk, hsk]
  | some i =>
      obtain ⟨ipk, isk, hi, rfl⟩ := hrest
      obtain ⟨hipk, hisk⟩ := KeySchema.numeric_of_extract (h.indexNumeric i rfl item hitem) hi
      simp [Position.numeric, hpk, hsk, hipk, hisk]

/-- Items with the same place have the same key. -/
theorem key?_eq_of_place_eq {x y : Item} {p q : Position} (hp : t.positionIn index x = .ok p)
    (hq : t.positionIn index y = .ok q) (h : p.place = q.place) :
    t.table.schema.key? x = t.table.schema.key? y := by
  obtain ⟨pk, sk, hx, hp⟩ := positionIn_eq_ok_iff.mp hp
  obtain ⟨pk', sk', hy, hq⟩ := positionIn_eq_ok_iff.mp hq
  rw [KeySchema.key?_of_extract hx, KeySchema.key?_of_extract hy]
  cases index with
  | none =>
      obtain rfl : p = [pk, sk] := hp
      obtain rfl : q = [pk', sk'] := hq
      simp only [Position.place, List.map_cons, List.map_nil, List.cons.injEq] at h
      rw [h.1, h.2.1]
  | some i =>
      obtain ⟨ipk, isk, -, rfl⟩ := hp
      obtain ⟨ipk', isk', -, rfl⟩ := hq
      simp only [Position.place, List.map_cons, List.map_nil, List.cons.injEq] at h
      rw [h.2.2.1, h.2.2.2.1]

/-- The attributes of the table key, and of the index key for an index. -/
def keyNames (t : IndexedTable) : Option KeySchema → List String
  | none => t.table.schema.names
  | some i => t.table.schema.names ++ i.names

/-- The key that a page ends with has these attributes of the item, and nothing else. -/
theorem get?_keyIn (t : IndexedTable) (index : Option KeySchema) (item : Item) (name : String) :
    NameMap.get? (t.keyIn index item) name =
      if name ∈ t.keyNames index then NameMap.get? item name else none := by
  cases index with
  | none => exact KeySchema.get?_keyOf t.table.schema item name
  | some i =>
      simp only [keyNames, List.mem_append]
      exact NameMap.get?_union_restrict item t.table.schema.names i.names name

/-- The key that a page ends with carries the position of the item. -/
theorem positionIn_keyIn (t : IndexedTable) (index : Option KeySchema) (item : Item) :
    t.positionIn index (t.keyIn index item) = t.positionIn index item := by
  have hposition : ∀ s : KeySchema, (∀ name ∈ s.names, name ∈ t.keyNames index) →
      s.position (t.keyIn index item) = s.position item := by
    intro s h
    have hextract : s.extract (t.keyIn index item) = s.extract item := by
      refine KeySchema.extract_congr ?_
      intro name hname
      rw [get?_keyIn, if_pos (h name hname)]
    rw [KeySchema.position, KeySchema.position, hextract]
  cases index with
  | none => exact hposition _ fun name hname => hname
  | some i =>
      have hi := hposition i fun name hname => List.mem_append_right _ hname
      have ht := hposition t.table.schema fun name hname => List.mem_append_left _ hname
      simp only [positionIn, indexPosition, hi, ht]

/-- An item that has a position has all attributes of it. -/
theorem isSome_of_positionIn (hp : t.positionIn index item = .ok p) {name : String}
    (hname : name ∈ t.keyNames index) : (NameMap.get? item name).isSome = true := by
  obtain ⟨pk, sk, hx, hrest⟩ := positionIn_eq_ok_iff.mp hp
  cases index with
  | none => exact KeySchema.isSome_of_extract hx hname
  | some i =>
      obtain ⟨ipk, isk, hi, -⟩ := hrest
      rcases List.mem_append.mp hname with hname | hname
      · exact KeySchema.isSome_of_extract hx hname
      · exact KeySchema.isSome_of_extract hi hname

theorem keyIn_ne_nil (hp : t.positionIn index item = .ok p) : t.keyIn index item ≠ [] := by
  intro hnil
  rw [← positionIn_keyIn, hnil] at hp
  obtain ⟨pk, sk, hx, -⟩ := positionIn_eq_ok_iff.mp hp
  obtain ⟨v, hv, -⟩ := KeyAttribute.read_eq_ok_iff.mp (KeySchema.extract_eq_ok_iff.mp hx).1
  cases hv

/-! ## What is shown -/

/-- Whether the table, or an index, shows an item at a position that is wanted. -/
def shows (t : IndexedTable) (index : Option KeySchema) (wanted : Position → Bool)
    (item : Item) : Bool :=
  match t.positionIn index item with
  | .ok p => wanted p
  | .error _ => false

theorem shows_eq_true_iff {wanted : Position → Bool} :
    t.shows index wanted item = true ↔
      ∃ p, t.positionIn index item = .ok p ∧ wanted p = true := by
  rw [shows]
  cases t.positionIn index item <;> simp

theorem wantedPosition_eq_some_iff {wanted : Position → Bool} :
    (match t.positionIn index item with
      | .ok q => if wanted q then some q else none
      | .error _ => none) = some p ↔ t.positionIn index item = .ok p ∧ wanted p = true := by
  cases t.positionIn index item with
  | error e => simp
  | ok q =>
      simp only [Option.ite_none_right_eq_some, Option.some.injEq, Except.ok.injEq]
      constructor
      · rintro ⟨hq, rfl⟩
        exact ⟨rfl, hq⟩
      · rintro ⟨rfl, hq⟩
        exact ⟨hq, rfl⟩

theorem mem_viewOf {wanted : Position → Bool} {e : Position × Item} :
    e ∈ t.viewOf index wanted ↔
      e.2 ∈ t.table.items ∧ t.positionIn index e.2 = .ok e.1 ∧ wanted e.1 = true := by
  rw [viewOf, View.mem_sort, Table.view, List.mem_filterMap]
  constructor
  · rintro ⟨x, hx, h⟩
    obtain ⟨p, hp, rfl⟩ := Option.map_eq_some_iff.mp h
    exact ⟨hx, wantedPosition_eq_some_iff.mp hp⟩
  · rintro ⟨hx, hp⟩
    exact ⟨e.2, hx, Option.map_eq_some_iff.mpr ⟨e.1, wantedPosition_eq_some_iff.mpr hp, rfl⟩⟩

/-- The items of the view are those that are shown. -/
theorem viewOf_perm (t : IndexedTable) (index : Option KeySchema) (wanted : Position → Bool) :
    ((t.viewOf index wanted).map (·.2)).Perm (t.table.items.filter (t.shows index wanted)) := by
  refine ((View.sort_perm _).map _).trans (List.Perm.of_eq ?_)
  rw [Table.view, List.map_filterMap, ← List.filterMap_eq_filter]
  refine List.filterMap_congr ?_
  intro x _
  cases hp : t.positionIn index x with
  | error e => simp [shows, hp, Option.guard]
  | ok p => cases h : wanted p <;> simp [shows, hp, h, Option.guard]

theorem Proper.numeric_viewOf (h : t.Proper index) (wanted : Position → Bool) :
    (t.viewOf index wanted).Numeric := by
  intro e he
  obtain ⟨hmem, hp, -⟩ := mem_viewOf.mp he
  exact h.numeric_position hmem hp

theorem Proper.ascending_viewOf (h : t.Proper index) (wanted : Position → Bool) :
    (t.viewOf index wanted).Pairwise View.Before := by
  refine View.ascending_sort ?_ ?_
  · intro e he
    exact h.numeric_viewOf wanted e (View.mem_sort.mpr he)
  · refine List.pairwise_filterMap.mpr ((h.sound.pairwise_key? h.numeric).imp ?_)
    intro x y hne a ha b hb hplace
    obtain ⟨p, hp, rfl⟩ := Option.map_eq_some_iff.mp ha
    obtain ⟨q, hq, rfl⟩ := Option.map_eq_some_iff.mp hb
    exact hne (key?_eq_of_place_eq (wantedPosition_eq_some_iff.mp hp).1
      (wantedPosition_eq_some_iff.mp hq).1 hplace)

/-- The pages that are cut out of the view serve the items that are shown. -/
theorem Proper.serves_viewOf (h : t.Proper index) {ε : Type} {position : Item → Except ε Position}
    (hposition : ∀ x p, t.positionIn index x = .ok p → position x = .ok p)
    (wanted : Position → Bool) (forward : Bool) (limit : Option Nat) :
    Page.Serves ((t.viewOf index wanted).fetch position (t.keyIn index) forward limit) limit
      (t.keyIn index) (inOrder forward ((t.viewOf index wanted).map (·.2))) := by
  refine View.serves_fetch (h.numeric_viewOf wanted) (h.ascending_viewOf wanted) ?_
  intro e he
  refine hposition _ _ ?_
  rw [positionIn_keyIn]
  exact (mem_viewOf.mp he).2.1

/-- A page of the view of an index is cut out at the positions in the index. -/
theorem readIndex_eq_fetch (t : IndexedTable) (i : KeySchema) (view : View)
    (startKey : Option Item) (forward : Bool) (limit : Option Nat) :
    t.readIndex i view startKey forward limit =
      view.fetch (fun x => (t.indexPosition i x).mapError .key) (t.indexKeyOf i) forward limit
        startKey := by
  cases startKey with
  | none => rfl
  | some key =>
      rw [readIndex, View.fetch, View.startAt]
      cases t.indexPosition i key <;> rfl

theorem scan_eq_fetch (t : IndexedTable) (startKey : Option Item) (limit : Option Nat) :
    t.table.scan limit startKey =
      (t.viewOf none fun _ => true).fetch t.table.schema.position t.table.schema.keyOf true limit
        startKey := by
  have hview : (t.table.view fun item => (t.table.schema.position item).toOption).sort =
      t.viewOf none fun _ => true := by
    rw [viewOf]
    congr 2
    funext item
    show (t.table.schema.position item).toOption = match t.table.schema.position item with
      | .ok p => if true then some p else none
      | .error _ => none
    cases t.table.schema.position item <;> rfl
  unfold Table.scan
  rw [hview]
  cases startKey with
  | none => rfl
  | some key =>
      rw [View.fetch, View.startAt]
      dsimp only
      cases t.table.schema.position key <;> rfl

/-! ## Lists of items -/

/-- The first item comes before the second one in the table, or in an index. -/
def PlacedBefore (t : IndexedTable) (index : Option KeySchema) (x y : Item) : Prop :=
  ∃ p q, t.place index x = some p ∧ t.place index y = some q ∧ p.compare q = .lt

/-- The list has the items of the table that have a place and the property, each once, in the
order of their places. -/
structure Lists (t : IndexedTable) (index : Option KeySchema) (forward : Bool)
    (p : Item → Bool) (items : List Item) : Prop where
  perm : items.Perm (t.table.items.filter fun x => (t.place index x).isSome && p x)
  sorted : items.Pairwise (Along forward (t.PlacedBefore index))

theorem place_of_positionIn (hp : t.positionIn index item = .ok p) :
    t.place index item = some p.place :=
  place_eq_some_iff.mpr ⟨p, hp, rfl⟩

theorem PlacedBefore.asymm (x y : Item) :
    t.PlacedBefore index x y → ¬ t.PlacedBefore index y x := by
  rintro ⟨p, q, hp, hq, hlt⟩ ⟨q', p', hq', hp', hlt'⟩
  obtain rfl : p = p' := Option.some.inj (hp.symm.trans hp')
  obtain rfl : q = q' := Option.some.inj (hq.symm.trans hq')
  rw [Std.OrientedCmp.gt_iff_lt.mpr hlt] at hlt'
  cases hlt'

theorem placedBefore_iff_of_place {x y : Item} {p q : Place} (hp : t.place index x = some p)
    (hq : t.place index y = some q) : t.PlacedBefore index x y ↔ p.compare q = .lt := by
  simp [PlacedBefore, hp, hq]

theorem placedBefore_iff {x y : Item} {p q : Position} (hp : t.positionIn index x = .ok p)
    (hq : t.positionIn index y = .ok q) :
    t.PlacedBefore index x y ↔ p.place.compare q.place = .lt :=
  placedBefore_iff_of_place (place_of_positionIn hp) (place_of_positionIn hq)

/-- Between items of one partition the sort keys decide. -/
theorem placedBefore_iff_sortsBelow {x y : Item} {v p q : KeyValue}
    (hx : t.table.schema.key? x = some (v, p)) (hy : t.table.schema.key? y = some (v, q)) :
    t.PlacedBefore none x y ↔ t.table.schema.SortsBelow x y := by
  have hself : KeyValue.compare v v = .eq := Std.ReflCmp.compare_self
  have hcompare : Place.compare [v, p] [v, q] = p.compare q := by
    rw [Place.compare, List.compareLex_cons_cons, hself, List.compareLex_cons_cons]
    cases p.compare q <;> rfl
  simp [PlacedBefore, place, hx, hy, hcompare, KeySchema.SortsBelow,
    KeySchema.sortValue?_of_key? hx, KeySchema.sortValue?_of_key? hy]

/-- The view lists the items that it shows. -/
theorem Proper.lists_viewOf (h : t.Proper index) {wanted : Position → Bool} {p : Item → Bool}
    (hp : ∀ x ∈ t.table.items, ∀ q, t.positionIn index x = .ok q → wanted q = p x)
    (forward : Bool) :
    t.Lists index forward p (inOrder forward ((t.viewOf index wanted).map (·.2))) where
  perm := by
    refine (inOrder_perm forward _).trans ((t.viewOf_perm index wanted).trans ?_)
    refine List.Perm.of_eq (List.filter_congr ?_)
    intro x hx
    rw [Bool.eq_iff_iff, shows_eq_true_iff, Bool.and_eq_true, Option.isSome_iff_exists]
    constructor
    · rintro ⟨q, hq, hwanted⟩
      exact ⟨⟨_, place_of_positionIn hq⟩, hp x hx q hq ▸ hwanted⟩
    · rintro ⟨⟨a, ha⟩, hpx⟩
      obtain ⟨q, hq, -⟩ := place_eq_some_iff.mp ha
      exact ⟨q, hq, (hp x hx q hq).trans hpx⟩
  sorted := by
    refine pairwise_inOrder (List.pairwise_map.mpr ?_)
    refine (h.ascending_viewOf wanted).imp_of_mem ?_
    intro a b ha hb hab
    exact ⟨_, _, place_of_positionIn (mem_viewOf.mp ha).2.1,
      place_of_positionIn (mem_viewOf.mp hb).2.1, hab⟩

/-- The selection of a query, told from the keys of the items. -/
theorem Proper.matching_eq_filter (h : t.Proper none) {c : KeyCondition} {p : Item → Bool}
    (hp : ∀ x ∈ t.table.items, ∀ pk sk, t.table.schema.extract x = .ok (pk, sk) →
      c.matches pk sk = p x ∧ c.Numeric) :
    t.table.matching c =
      t.table.items.filter fun x => (t.place none x).isSome && p x := by
  by_cases hempty : t.table.items = []
  · have hnil : t.table.matching c = [] := by
      refine List.eq_nil_iff_forall_not_mem.mpr ?_
      intro x hx
      have hmem := Table.mem_items_of_mem_matching hx
      rw [hempty] at hmem
      cases hmem
    rw [hnil, hempty, List.filter_nil]
  · obtain ⟨x, hx⟩ := List.exists_mem_of_ne_nil _ hempty
    obtain ⟨pk, sk, hxk⟩ := h.sound.extract_of_mem hx
    obtain ⟨hpartition, hsort⟩ := (hp x hx pk sk hxk).2
    rw [h.sound.matching_eq_filter h.numeric hsort,
      h.sound.partition_eq_filter h.numeric hpartition, List.filter_filter]
    refine List.filter_congr ?_
    intro y hy
    obtain ⟨pk, sk, hyk⟩ := h.sound.extract_of_mem hy
    obtain ⟨hreadpk, hreadsk⟩ := KeySchema.extract_eq_ok_iff.mp hyk
    have hplace : (t.place none y).isSome = true := by
      simp [place, KeySchema.key?_of_extract hyk]
    have hvalue : (t.table.schema.partition.value? y ==
        some (SortKey.ofValue c.partition).value) = pk.same (SortKey.ofValue c.partition) := by
      rw [KeyAttribute.value?_eq_some_iff.mpr ⟨pk, hreadpk, rfl⟩, Bool.eq_iff_iff, beq_iff_eq,
        Option.some.injEq, SortKey.same_iff]
    have hsatisfies : t.table.schema.satisfies c.sort y =
        (c.sort.map fun s => s.holds sk).getD true := by
      cases hs : c.sort <;> simp [KeySchema.satisfies, hreadsk]
    rw [hplace, hvalue, hsatisfies, Bool.true_and, ← (hp y hy pk sk hyk).1, KeyCondition.matches,
      Bool.and_comm]

/-- All items that a query selects are in one partition. -/
theorem Proper.key?_of_mem_matching (h : t.Proper none) {c : KeyCondition} {x : Item}
    (hx : x ∈ t.table.matching c) :
    ∃ (pk : SortKey) (q : KeyValue), pk.numeric = true ∧
      Table.partitionOf pk.toValue = Table.partitionOf c.partition ∧
      t.table.schema.key? x = some (pk.value, q) := by
  obtain ⟨e, he, rfl⟩ := List.mem_map.mp hx
  obtain ⟨pk, hpk, hpart, hkey⟩ :=
    h.sound.key?_of_mem_partition h.numeric (Table.mem_partition_of_mem_selected he)
  exact ⟨pk, e.1.value, hpk, hpart, hkey⟩

theorem Proper.pairwise_matching (h : t.Proper none) (c : KeyCondition) :
    (t.table.matching c).Pairwise (t.PlacedBefore none) := by
  refine (h.sound.pairwise_matching h.numeric).imp_of_mem ?_
  intro x y hx hy hxy
  obtain ⟨pk, p, hpk, hpart, hkey⟩ := h.key?_of_mem_matching hx
  obtain ⟨pk', q, hpk', hpart', hkey'⟩ := h.key?_of_mem_matching hy
  rw [(Table.partitionOf_eq_iff hpk' hpk).mp (hpart'.trans hpart.symm)] at hkey'
  exact (placedBefore_iff_sortsBelow hkey hkey').mpr hxy

/-- A query of the table lists the items whose keys satisfy its key condition. -/
theorem Proper.lists_matching (h : t.Proper none) {c : KeyCondition} {p : Item → Bool}
    (hp : ∀ x ∈ t.table.items, ∀ pk sk, t.table.schema.extract x = .ok (pk, sk) →
      c.matches pk sk = p x ∧ c.Numeric) (forward : Bool) :
    t.Lists none forward p (inOrder forward (t.table.matching c)) where
  perm := (inOrder_perm forward _).trans (List.Perm.of_eq (h.matching_eq_filter hp))
  sorted := pairwise_inOrder (h.pairwise_matching c)

end IndexedTable

end ItemStore
