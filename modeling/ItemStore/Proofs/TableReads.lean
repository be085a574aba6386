import ItemStore.Proofs.RequestPages

/-!
# Reading a table that is written to

A query or a scan of a table goes on after a key whether or not there is still an item with it: the
page after a key is cut off what lies beyond it (`PageRequest.ReadsTable.exists_rest`).  A put keeps
every key that a read shows (`IndexedTable.Proper.exists_mem_shown_attempt`), even where the item
that it puts spells a number of the key in another way, since an entry keeps the key that it was
first written with.
-/

namespace ItemStore

/-! ## The order of the keys -/

namespace KeySchema

variable {s : KeySchema} {x y z : Item}

/-- The key of the first item is below the key of the second: its partition key is, or, in one
partition, its sort key. -/
def Precedes (s : KeySchema) (x y : Item) : Prop :=
  ∃ p q, s.key? x = some p ∧ s.key? y = some q ∧ Place.compare [p.1, p.2] [q.1, q.2] = .lt

theorem Precedes.trans (hxy : s.Precedes x y) (hyz : s.Precedes y z) : s.Precedes x z := by
  obtain ⟨p, q, hp, hq, hlt⟩ := hxy
  obtain ⟨q', r, hq', hr, hlt'⟩ := hyz
  obtain rfl : q = q' := Option.some.inj (hq.symm.trans hq')
  exact ⟨p, r, hp, hr, Std.TransCmp.lt_trans hlt hlt'⟩

theorem Precedes.key?_ne (h : s.Precedes x y) : s.key? x ≠ s.key? y := by
  intro heq
  obtain ⟨p, q, hp, hq, hlt⟩ := h
  obtain rfl : p = q := Option.some.inj (hp.symm.trans (heq.trans hq))
  exact OrderedMap.ne_of_ord_lt hlt rfl

/-- Only the keys matter. -/
theorem along_precedes_congr {forward : Bool} {z : Item} (h : s.key? y = s.key? z) :
    Along forward s.Precedes x y ↔ Along forward s.Precedes x z := by
  cases forward <;> simp [Along, Precedes, h]

/-- A read can go on after the item: it carries a key, and if a key condition is read, one of its
partition. -/
def Reached (s : KeySchema) (k : Option KeyCondition) (x : Item) : Prop :=
  ∃ pk sk, s.extract x = .ok (pk, sk) ∧ pk.numeric = true ∧ sk.numeric = true ∧
    ∀ c ∈ k, Table.partitionOf pk.toValue = Table.partitionOf c.partition

end KeySchema

namespace IndexedTable

variable {t : IndexedTable} {k : Option KeyCondition} {c : KeyCondition} {x y item : Item}
  {forward : Bool}

theorem placedBefore_none_iff : t.PlacedBefore none x y ↔ t.table.schema.Precedes x y := by
  simp [PlacedBefore, place, KeySchema.Precedes]

/-! ## What is shown -/

/-- The items of the table in the order of their keys: all of them, or those that a key condition
selects. -/
def shown (t : IndexedTable) : Option KeyCondition → List Item
  | none => (t.viewOf none fun _ => true).map (·.2)
  | some c => t.table.matching c

theorem mem_items_of_mem_shown (hx : x ∈ t.shown k) : x ∈ t.table.items := by
  cases k with
  | none =>
      obtain ⟨e, he, rfl⟩ := List.mem_map.mp hx
      exact (mem_viewOf.mp he).1
  | some c => exact Table.mem_items_of_mem_matching hx

/-- A scan shows all items. -/
theorem Proper.mem_shown_none (h : t.Proper none) : x ∈ t.shown none ↔ x ∈ t.table.items := by
  refine ⟨mem_items_of_mem_shown, ?_⟩
  intro hx
  obtain ⟨pk, sk, hxk⟩ := h.sound.extract_of_mem hx
  have hposition : t.positionIn none x = .ok [pk, sk] :=
    KeySchema.position_eq_ok_iff.mpr ⟨pk, sk, hxk, rfl⟩
  exact List.mem_map.mpr ⟨([pk, sk], x), mem_viewOf.mpr ⟨hx, hposition, rfl⟩, rfl⟩

/-- A query whose key condition compares with numbers shows the items that it selects. -/
theorem Proper.mem_shown_some (h : t.Proper none) (hc : c.Numeric) :
    x ∈ t.shown (some c) ↔ x ∈ t.table.items ∧ t.table.schema.selects c x = true := by
  have hmatching := h.matching_eq_filter (c := c) (p := t.table.schema.selects c)
    fun y _ pk sk hy => ⟨(KeySchema.selects_of_extract hy).symm, hc⟩
  rw [shown, hmatching, List.mem_filter, Bool.and_eq_true]
  refine and_congr_right ?_
  intro hx
  obtain ⟨pk, sk, hxk⟩ := h.sound.extract_of_mem hx
  simp [place, KeySchema.key?_of_extract hxk]

theorem Proper.pairwise_shown (h : t.Proper none) (k : Option KeyCondition) :
    (t.shown k).Pairwise t.table.schema.Precedes := by
  cases k with
  | none =>
      have hsorted := (h.lists_viewOf (fun _ _ _ _ => rfl) true :
        t.Lists none true (fun _ => true) _).sorted
      exact hsorted.imp placedBefore_none_iff.mp
  | some c => exact (h.pairwise_matching c).imp placedBefore_none_iff.mp

theorem Proper.reached_of_mem_shown (h : t.Proper none) (hx : x ∈ t.shown k) :
    t.table.schema.Reached k x := by
  have hmem := mem_items_of_mem_shown hx
  obtain ⟨pk, sk, hxk⟩ := h.sound.extract_of_mem hmem
  obtain ⟨hpk, hsk⟩ := KeySchema.numeric_of_extract (h.numeric x hmem) hxk
  refine ⟨pk, sk, hxk, hpk, hsk, ?_⟩
  rintro c rfl
  obtain ⟨pk', q, hpk', hpart, hkey⟩ := h.key?_of_mem_matching hx
  rw [KeySchema.key?_of_extract hxk, Option.some.injEq, Prod.mk.injEq] at hkey
  rw [← hpart, Table.partitionOf_eq_iff hpk hpk', hkey.1]

/-- The table answers a get with what it shows. -/
theorem Proper.get_keyOf (h : t.Proper none) (hx : t.table.schema.Reached k x)
    (hy : y ∈ t.table.items) (hkey : t.table.schema.key? y = t.table.schema.key? x) :
    t.table.get (t.table.schema.keyOf x) = .ok (some y) := by
  obtain ⟨pk, sk, hxk, hpk, hsk, -⟩ := hx
  have hfind : t.table.find pk sk = some y := by
    rw [h.sound.find_eq_some_iff h.numeric hpk hsk, hkey, KeySchema.key?_of_extract hxk]
    exact ⟨hy, rfl⟩
  rw [Table.get, KeySchema.extract_keyOf, hxk, ← hfind]
  rfl

/-! ## What a put does -/

/-- The table after one put. -/
def attempt (t : IndexedTable) (item : Item) : IndexedTable :=
  { t with table := t.table.attempt item }

theorem Proper.attempt (h : t.Proper none) (hitem : t.table.schema.numeric item = true) :
    (t.attempt item).Proper none :=
  ⟨h.sound.attempt item, h.numeric.attempt hitem, nofun⟩

/-- A key that is shown is still shown after a put. -/
theorem Proper.exists_mem_shown_attempt (h : t.Proper none)
    (hitem : t.table.schema.numeric item = true) (hx : x ∈ t.shown k) :
    ∃ y ∈ (t.attempt item).shown k, t.table.schema.key? y = t.table.schema.key? x := by
  cases k with
  | none =>
      rw [h.mem_shown_none] at hx
      obtain ⟨pk, sk, key, -, he, -⟩ := h.sound.exists_mem_partition hx
      obtain ⟨e, he', -, hkey⟩ := h.sound.exists_same_key_attempt h.numeric hitem he
      exact ⟨e.2, (h.attempt hitem).mem_shown_none.mpr (Table.mem_items_of_mem_partition he'), hkey⟩
  | some c =>
      obtain ⟨e, he, rfl⟩ := List.mem_map.mp hx
      obtain ⟨hpartition, hsort⟩ := List.mem_filter.mp he
      obtain ⟨e', he', hfirst, hkey⟩ :=
        h.sound.exists_same_key_attempt h.numeric hitem hpartition
      -- the condition looks at the entry key, which the put leaves as it is
      have hselected : e' ∈ (t.attempt item).table.selected c :=
        List.mem_filter.mpr ⟨he', by rw [hfirst]; exact hsort⟩
      exact ⟨e'.2, List.mem_map_of_mem hselected, hkey⟩

end IndexedTable

/-! ## Pages after a key -/

namespace PageRequest

/-- Scans are in ascending order. -/
def forward : PageRequest → Bool
  | query r => r.forward.getD true
  | scan _ => true

/-- The request reads a table with the key: all items, or those that a key condition selects. -/
inductive ReadsTable (schema : KeySchema) : PageRequest → Option KeyCondition → Prop
  | scan {r : Scan} : r.index = none → ReadsTable schema (.scan r) none
  | query {r : Query} {c : Condition} {k : KeyCondition} : r.index = none →
      Store.readCondition r.keyCondition = .ok c →
      KeyCondition.ofCondition schema r.values c = .ok k → ReadsTable schema (.query r) (some k)

variable {s : Store} {t : IndexedTable} {request : PageRequest} {k : Option KeyCondition}
  {limit : Option Nat} {x : Item}

theorem ReadsTable.page_first (h : ReadsTable t.table.schema request k)
    (ht : s.table request.table = .ok t) (hproper : t.Proper none)
    (hlimit : s.pageLimit request.limit = .ok limit) :
    request.page s none = .ok (Page.cut limit t.table.schema.keyOf
      (inOrder request.forward (t.shown k))) := by
  cases h with
  | scan hindex =>
      rw [page_scan ht (by rw [hindex]; rfl : t.named _ = some none) hlimit]
      exact (hproper.serves_viewOf (fun _ _ hq => mapError_eq_ok_iff.mpr hq) _ true limit).first
  | query hindex hc hk =>
      rw [page_query_table ht hindex hlimit hc hk]
      exact mapError_eq_ok_iff.mpr (hproper.sound.serves_query hproper.numeric limit).first

/-- What lies beyond a position comes after the item that is there. -/
theorem beyond_iff_along {forward : Bool} {p q : Position} {y : Item}
    (hp : t.positionIn none x = .ok p) (hq : t.positionIn none y = .ok q)
    (hpn : p.numeric = true) (hqn : q.numeric = true) :
    View.beyond forward (some p) q = true ↔ Along forward t.table.schema.Precedes x y := by
  have hxy := IndexedTable.placedBefore_none_iff.symm.trans (IndexedTable.placedBefore_iff hp hq)
  have hyx := IndexedTable.placedBefore_none_iff.symm.trans (IndexedTable.placedBefore_iff hq hp)
  rw [View.beyond, beq_iff_eq, Position.compare_eq_compare_place hqn hpn]
  cases forward with
  | true => exact Std.OrientedCmp.gt_iff_lt.trans hxy.symm
  | false => exact hyx.symm

/-- The page after the key of an item is cut off what comes after the item. -/
theorem ReadsTable.page_after (h : ReadsTable t.table.schema request k)
    (ht : s.table request.table = .ok t) (hproper : t.Proper none)
    (hlimit : s.pageLimit request.limit = .ok limit) (hx : t.table.schema.Reached k x) :
    ∃ after : Item → Bool,
      (∀ y ∈ t.shown k, after y = true ↔ Along request.forward t.table.schema.Precedes x y) ∧
      request.page s (some (t.table.schema.keyOf x)) = .ok (Page.cut limit t.table.schema.keyOf
        ((inOrder request.forward (t.shown k)).filter after)) := by
  obtain ⟨pk, sk, hxk, hpk, hsk, hpart⟩ := hx
  have hposition : t.positionIn none x = .ok [pk, sk] :=
    KeySchema.position_eq_ok_iff.mpr ⟨pk, sk, hxk, rfl⟩
  have hstart : Store.startOf (t.table.schema.keyOf x) = some (t.table.schema.keyOf x) :=
    if_neg fun hnil => IndexedTable.keyIn_ne_nil hposition (List.isEmpty_iff.mp hnil)
  cases h with
  | @scan r hindex =>
      have hstartAt : View.startAt (fun y => (t.positionIn none y).mapError StoreError.key)
          (some (t.table.schema.keyOf x)) = .ok (some [pk, sk]) := by
        have hkey : t.positionIn none (t.table.schema.keyOf x) = .ok [pk, sk] :=
          (t.positionIn_keyIn none x).trans hposition
        rw [View.startAt, hkey]
        rfl
      refine ⟨t.shows none (View.beyond true (some [pk, sk])), ?_, ?_⟩
      · intro y hy
        obtain ⟨e, he, rfl⟩ := List.mem_map.mp hy
        obtain ⟨hitem, hq, -⟩ := IndexedTable.mem_viewOf.mp he
        rw [IndexedTable.shows, hq]
        exact beyond_iff_along hposition hq (by simp [Position.numeric, hpk, hsk])
          (hproper.numeric_position hitem hq)
      · have hfilter : (inOrder true (t.shown none)).filter
            (t.shows none (View.beyond true (some [pk, sk]))) =
            ((inOrder true (t.viewOf none fun _ => true)).filter
              fun e => View.beyond true (some [pk, sk]) e.1).map (·.2) := by
          rw [IndexedTable.shown, ← map_inOrder, List.filter_map]
          refine congrArg _ (List.filter_congr ?_)
          intro e he
          rw [Function.comp_apply, IndexedTable.shows,
            (IndexedTable.mem_viewOf.mp (mem_inOrder.mp he)).2.1]
        rw [page_scan ht (by rw [hindex]; rfl : t.named _ = some none) hlimit, Option.getD_some,
          hstart, View.fetch_of_startAt hstartAt, ← hfilter]
        rfl
  | @query r c k hindex hc hk =>
      refine ⟨t.table.schema.beyond (r.forward.getD true) sk.value, ?_, ?_⟩
      · intro y hy
        obtain ⟨pk', q, hpk', hpart', hkey⟩ := hproper.key?_of_mem_matching hy
        have hkeyx := KeySchema.key?_of_extract hxk
        rw [← (Table.partitionOf_eq_iff hpk hpk').mp ((hpart k rfl).trans hpart'.symm)] at hkey
        have hxy := IndexedTable.placedBefore_none_iff.symm.trans
          (IndexedTable.placedBefore_iff_sortsBelow hkeyx hkey)
        have hyx := IndexedTable.placedBefore_none_iff.symm.trans
          (IndexedTable.placedBefore_iff_sortsBelow hkey hkeyx)
        refine (Table.beyond_iff_along (KeySchema.sortValue?_of_key? hkeyx)).trans ?_
        show Along (r.forward.getD true) _ x y ↔ Along (r.forward.getD true) _ x y
        cases r.forward.getD true with
        | true => exact hxy.symm
        | false => exact hyx.symm
      · rw [page_query_table ht hindex hlimit hc hk, Option.getD_some, hstart]
        refine mapError_eq_ok_iff.mpr ?_
        exact hproper.sound.query_eq hproper.numeric (by rw [KeySchema.extract_keyOf, hxk]) hsk

/-- The page after the last item that a read returned, which need not be in the table any more, is
cut off what comes after the item; if no item was returned yet, off all that is shown. -/
theorem ReadsTable.exists_rest (h : ReadsTable t.table.schema request k)
    (ht : s.table request.table = .ok t) (hproper : t.Proper none)
    (hlimit : s.pageLimit request.limit = .ok limit) {last : Option Item}
    (hlast : ∀ x ∈ last, t.table.schema.Reached k x) :
    ∃ rest : List Item, rest.Pairwise (Along request.forward t.table.schema.Precedes) ∧
      (∀ y, y ∈ rest ↔ y ∈ t.shown k ∧
        ∀ x ∈ last, Along request.forward t.table.schema.Precedes x y) ∧
      request.page s (last.map t.table.schema.keyOf) =
        .ok (Page.cut limit t.table.schema.keyOf rest) := by
  have hsorted : (inOrder request.forward (t.shown k)).Pairwise
      (Along request.forward t.table.schema.Precedes) :=
    pairwise_inOrder (hproper.pairwise_shown k)
  cases last with
  | none => exact ⟨_, hsorted, by simp [mem_inOrder], h.page_first ht hproper hlimit⟩
  | some x =>
      obtain ⟨after, hafter, hpage⟩ := h.page_after ht hproper hlimit (hlast x rfl)
      refine ⟨_, hsorted.filter after, ?_, hpage⟩
      intro y
      rw [List.mem_filter, mem_inOrder]
      constructor
      · rintro ⟨hy, hay⟩
        refine ⟨hy, ?_⟩
        rintro _ ⟨⟩
        exact (hafter y hy).mp hay
      · rintro ⟨hy, hxy⟩
        exact ⟨hy, (hafter y hy).mpr (hxy x rfl)⟩

end PageRequest

end ItemStore
