import ItemStore.Proofs.RequestPages

/-!
# The read paths agree

Items are read in three ways: a query of a table walks a partition, a query of an index is cut out
of a sorted view, and a scan shows a sorted view through a filter that is evaluated on each item.
All three list the items whose key satisfies the key condition in the order of their places, and
there is one such list only (`IndexedTable.Lists.unique`).  Therefore a query lists what a scan
does with the same condition as its filter (`Store.scan_of_query`).

An index with the key of its table has each key twice in its places, which orders them as the key
does.  A query of it cuts the same pages as one of the table (`IndexedTable.readIndex_eq_query`).
-/

namespace ItemStore

/-- The number texts among the values are numbers. -/
def NumericValues (values : NameMap Value) : Prop :=
  ∀ e ∈ values, (SortKey.ofValue e.2).numeric = true

instance (values : NameMap Value) : Decidable (NumericValues values) :=
  inferInstanceAs (Decidable (∀ e ∈ values, (SortKey.ofValue e.2).numeric = true))

theorem NumericValues.numericUnder {values : NameMap Value} (h : NumericValues values)
    (c : Condition) : c.NumericUnder values :=
  fun _ _ _ hv => h _ (NameMap.mem_of_get? hv)

namespace IndexedTable

variable {t : IndexedTable} {index : Option KeySchema} {forward : Bool} {p : Item → Bool}
  {xs ys : List Item}

/-! ## One list only -/

theorem Lists.unique (hxs : t.Lists index forward p xs) (hys : t.Lists index forward p ys) :
    xs = ys :=
  eq_of_perm_of_asymm (Along.asymm PlacedBefore.asymm) (hxs.perm.trans hys.perm.symm) hxs.sorted
    hys.sorted

/-- A list that is read backward is reversed. -/
theorem Lists.inOrder (h : t.Lists index true p xs) (forward : Bool) :
    t.Lists index forward p (inOrder forward xs) where
  perm := (inOrder_perm forward xs).trans h.perm
  sorted := pairwise_inOrder h.sorted

/-! ## Key conditions -/

/-- The key of the table, or of an index. -/
def schemaOf (t : IndexedTable) (index : Option KeySchema) : KeySchema :=
  index.getD t.table.schema

variable {values : NameMap Value} {c : Condition} {k : KeyCondition} {item : Item} {q : Position}

theorem extract_schemaOf (hq : t.positionIn index item = .ok q) :
    ∃ pk sk, (t.schemaOf index).extract item = .ok (pk, sk) := by
  obtain ⟨pk, sk, hx, hrest⟩ := positionIn_eq_ok_iff.mp hq
  cases index with
  | none => exact ⟨pk, sk, hx⟩
  | some i =>
      obtain ⟨ipk, isk, hi, -⟩ := hrest
      exact ⟨ipk, isk, hi⟩

theorem Proper.numeric_schemaOf (h : t.Proper index) (hitem : item ∈ t.table.items) :
    (t.schemaOf index).numeric item = true :=
  h.numeric_key hitem

/-- On an item that is shown, the condition is evaluated to whether the key satisfies it. -/
theorem Proper.eval_eq_selects (h : t.Proper index) (hvalues : NumericValues values)
    (hk : KeyCondition.ofCondition (t.schemaOf index) values c = .ok k)
    (hitem : item ∈ t.table.items) (hq : t.positionIn index item = .ok q) :
    c.eval item values = .ok ((t.schemaOf index).selects k item) ∧ k.Numeric := by
  obtain ⟨pk, sk, hx⟩ := extract_schemaOf hq
  obtain ⟨hpk, hsk⟩ := KeySchema.numeric_of_extract (h.numeric_schemaOf hitem) hx
  rw [KeySchema.selects_of_extract hx]
  exact KeyCondition.eval_of_ofCondition hk hx hpk hsk fun d _ => hvalues.numericUnder d

/-- The walk over a partition lists the items that the key condition selects. -/
theorem Proper.lists_matching_selects (h : t.Proper none) (hvalues : NumericValues values)
    (hk : KeyCondition.ofCondition t.table.schema values c = .ok k) (forward : Bool) :
    t.Lists none forward (t.table.schema.selects k)
      (ItemStore.inOrder forward (t.table.matching k)) := by
  refine h.lists_matching ?_ forward
  intro x hx pk sk hxk
  have hposition : t.positionIn none x = .ok [pk, sk] :=
    KeySchema.position_eq_ok_iff.mpr ⟨pk, sk, hxk, rfl⟩
  exact ⟨(KeySchema.selects_of_extract hxk).symm, (h.eval_eq_selects hvalues hk hx hposition).2⟩

/-! ## An index with the key of the table -/

theorem indexKeyOf_schema (t : IndexedTable) :
    t.indexKeyOf t.table.schema = t.table.schema.keyOf := by
  funext item
  have hascending : NameMap.Ascending (t.table.schema.keyOf item) :=
    NameMap.ascending_nil.foldl_set _
  rw [indexKeyOf, hascending.union_self]

theorem compareLex_twice {α : Type} (cmp : α → α → Ordering) (a b c d : α) :
    List.compareLex cmp [a, b, a, b] [c, d, c, d] = List.compareLex cmp [a, b] [c, d] := by
  simp only [List.compareLex_cons_cons]
  cases cmp a c <;> cases cmp b d <;> rfl

/-- An item has a place in both or in neither, and there the same items come before it. -/
theorem placedBefore_schema_iff {x y : Item} :
    t.PlacedBefore (some t.table.schema) x y ↔ t.PlacedBefore none x y := by
  cases hx : t.table.schema.key? x with
  | none => simp [PlacedBefore, place, hx]
  | some a =>
      cases hy : t.table.schema.key? y with
      | none => simp [PlacedBefore, place, hy]
      | some b =>
          simp [PlacedBefore, place, hx, hy, Place.compare, compareLex_twice]

theorem Lists.of_schema (h : t.Lists (some t.table.schema) forward p xs) :
    t.Lists none forward p xs where
  perm := by
    have hplace : ∀ x, (t.place (some t.table.schema) x).isSome = (t.place none x).isSome := by
      intro x
      cases hx : t.table.schema.key? x <;> simp [place, hx]
    simpa only [hplace] using h.perm
  sorted := by
    refine h.sorted.imp ?_
    intro x y hxy
    cases forward with
    | true => exact placedBefore_schema_iff.mp hxy
    | false => exact placedBefore_schema_iff.mp hxy

/-- The view of such an index shows what the walk over a partition selects. -/
theorem Proper.map_viewOf_schema (h : t.Proper (some t.table.schema))
    (hvalues : NumericValues values)
    (hk : KeyCondition.ofCondition t.table.schema values c = .ok k) :
    (t.viewOf (some t.table.schema) (matchesKey k)).map (·.2) = t.table.matching k := by
  have htable : t.Proper none := ⟨h.sound, h.numeric, nofun⟩
  have hview : t.Lists (some t.table.schema) true (t.table.schema.selects k) _ :=
    h.lists_viewOf (fun _ _ _ => matchesKey_of_positionIn) true
  exact hview.of_schema.unique (htable.lists_matching_selects hvalues hk true)

/-- What comes after a start in the view is what comes after its sort key in the partition. -/
theorem beyond_schema {pk sk pk' sk' : SortKey} (hpk : pk'.value = pk.value)
    (hsk : sk.numeric = true) (hsk' : sk'.numeric = true)
    (hx : t.table.schema.extract item = .ok (pk', sk')) :
    View.beyond forward (some [pk, sk, pk, sk]) [pk', sk', pk', sk'] =
      t.table.schema.beyond forward sk.value item := by
  have hsort : t.table.schema.sortValue? item = some sk'.value :=
    KeySchema.sortValue?_eq_some_iff.mpr ⟨sk', (KeySchema.extract_eq_ok_iff.mp hx).2, rfl⟩
  have hcompare : Position.compare [pk', sk', pk', sk'] [pk, sk, pk, sk] = sk'.compare sk := by
    rw [Position.compare, compareLex_twice, List.compareLex_cons_cons,
      (SortKey.compare_eq_iff pk' pk).mpr hpk, List.compareLex_cons_cons]
    cases sk'.compare sk <;> rfl
  rw [View.beyond, hcompare, KeySchema.beyond, hsort, Option.any_some,
    SortKey.compare_eq_compare_value hsk' hsk]

theorem Proper.filter_viewOf_schema (h : t.Proper (some t.table.schema)) {pk sk : SortKey}
    (hpk : pk.same (SortKey.ofValue k.partition) = true) (hsk : sk.numeric = true) :
    (inOrder forward (t.viewOf (some t.table.schema) (matchesKey k))).filter
      (fun e => View.beyond forward (some [pk, sk, pk, sk]) e.1) =
    (inOrder forward (t.viewOf (some t.table.schema) (matchesKey k))).filter
      fun e => t.table.schema.beyond forward sk.value e.2 := by
  refine List.filter_congr ?_
  intro e he
  obtain ⟨hitem, hq, hmatch⟩ := mem_viewOf.mp (mem_inOrder.mp he)
  obtain ⟨pk', sk', hx, ipk, isk, hi, hplace⟩ := positionIn_eq_ok_iff.mp hq
  cases hx.symm.trans hi
  rw [hplace] at hmatch ⊢
  have hsk' := (KeySchema.numeric_of_extract (h.numeric _ hitem) hx).2
  have hpk' := (SortKey.same_iff _ _).mp (Bool.and_eq_true_iff.mp hmatch).1
  exact beyond_schema (hpk'.trans ((SortKey.same_iff _ _).mp hpk).symm) hsk hsk' hx

/-- A start key that is in the partition of a key condition. -/
def StartsIn (t : IndexedTable) (k : KeyCondition) (key : Item) : Prop :=
  t.table.schema.numeric key = true ∧ ∃ pk sk, t.table.schema.extract key = .ok (pk, sk) ∧
    pk.same (SortKey.ofValue k.partition) = true

/-- A query of an index with the key of the table cuts the same pages as one of the table. -/
theorem Proper.readIndex_eq_query (h : t.Proper (some t.table.schema))
    (hvalues : NumericValues values)
    (hk : KeyCondition.ofCondition t.table.schema values c = .ok k) (forward : Bool)
    (limit : Option Nat) {start : Option Item} (hstart : ∀ key ∈ start, t.StartsIn k key) :
    t.readIndex t.table.schema (t.indexView t.table.schema (matchesKey k)) start forward limit =
      (t.table.query k forward limit start).mapError .key := by
  have hview : t.indexView t.table.schema (matchesKey k) =
      t.viewOf (some t.table.schema) (matchesKey k) := rfl
  rw [readIndex_eq_fetch, indexKeyOf_schema, hview]
  cases start with
  | none =>
      have hall : (inOrder forward (t.viewOf (some t.table.schema) (matchesKey k))).filter
          (fun e => View.beyond forward none e.1) =
          inOrder forward (t.viewOf (some t.table.schema) (matchesKey k)) :=
        List.filter_eq_self.mpr fun _ _ => rfl
      rw [View.fetch_of_startAt rfl, hall, map_inOrder,
        (h.sound.serves_query h.numeric limit).first, ← h.map_viewOf_schema hvalues hk]
      rfl
  | some key =>
      obtain ⟨hkey, pk, sk, hx, hpk⟩ := hstart key rfl
      have hsk := (KeySchema.numeric_of_extract hkey hx).2
      have hposition : t.positionIn (some t.table.schema) key = .ok [pk, sk, pk, sk] :=
        positionIn_eq_ok_iff.mpr ⟨pk, sk, hx, pk, sk, hx, rfl⟩
      have hstartAt : View.startAt (fun x => (t.indexPosition t.table.schema x).mapError
          StoreError.key) (some key) = .ok (some [pk, sk, pk, sk]) := by
        show ((t.positionIn (some t.table.schema) key).mapError StoreError.key).map some = _
        rw [hposition]
        rfl
      rw [View.fetch_of_startAt hstartAt, h.filter_viewOf_schema hpk hsk,
        h.sound.query_eq h.numeric hx hsk, ← h.map_viewOf_schema hvalues hk, ← map_inOrder,
        List.filter_map]
      rfl

end IndexedTable

/-! ## Queries and scans -/

namespace Store

variable {s : Store} {t : IndexedTable} {index : Option KeySchema} {c : Condition}
  {k : KeyCondition}

/-- What a query that is answered has found. -/
theorem query_eq_ok {r : Query} {a : PageRead} (h : s.query r = .ok a) :
    ∃ t index c k, s.table r.table = .ok t ∧ t.named r.index = some index ∧
      readCondition r.keyCondition = .ok c ∧
      KeyCondition.ofCondition (t.schemaOf index) r.values c = .ok k := by
  obtain ⟨t, ht, h⟩ := bind_eq_ok_iff.mp h
  obtain ⟨limit, -, h⟩ := bind_eq_ok_iff.mp h
  obtain ⟨filter, -, h⟩ := bind_eq_ok_iff.mp h
  obtain ⟨c, hc, h⟩ := bind_eq_ok_iff.mp h
  cases hindex : r.index with
  | none =>
      rw [hindex] at h
      obtain ⟨k, hk, -⟩ := bind_eq_ok_iff.mp h
      exact ⟨t, none, c, k, ht, rfl, hc, mapError_eq_ok_iff.mp hk⟩
  | some name =>
      rw [hindex] at h
      obtain ⟨i, hi, h⟩ := bind_eq_ok_iff.mp h
      obtain ⟨k, hk, -⟩ := bind_eq_ok_iff.mp h
      exact ⟨t, some i, c, k, ht, IndexedTable.named_of_index hi, hc, mapError_eq_ok_iff.mp hk⟩

theorem query_eq_page {r : Query} {f : Option Condition} (hf : readFilter r.filter = .ok f)
    (hstart : r.startKey = []) :
    s.query r = (PageRequest.query r).page s none >>= fun page => answer page f r.values := by
  have hsend := PageRequest.send_eq_page s (.query r) hf none
  have hsame : { r with startKey := (none : Option Item).getD [] } = r := by
    rw [Option.getD_none, ← hstart]
  rw [← hsame]
  exact hsend

theorem scan_eq_page {r : Scan} {f : Option Condition} (hf : readFilter r.filter = .ok f)
    (hstart : r.startKey = []) :
    s.scan r = (PageRequest.scan r).page s none >>= fun page => answer page f r.values := by
  have hsend := PageRequest.send_eq_page s (.scan r) hf none
  have hsame : { r with startKey := (none : Option Item).getD [] } = r := by
    rw [Option.getD_none, ← hstart]
  rw [← hsame]
  exact hsend

/-- Without a limit, a query reads all items that its key condition selects. -/
theorem exists_page_query (hs : s.Sound) {r : Query} (ht : s.table r.table = .ok t)
    (hn : t.Numeric) (hindex : t.named r.index = some index)
    (hlimit : s.pageLimit r.limit = .ok none) (hvalues : NumericValues r.values)
    (hc : readCondition r.keyCondition = .ok c)
    (hk : KeyCondition.ofCondition (t.schemaOf index) r.values c = .ok k) :
    ∃ items, t.Lists index (r.forward.getD true) ((t.schemaOf index).selects k) items ∧
      (PageRequest.query r).page s none = .ok ⟨items, none⟩ := by
  have hproper := hs.proper_of_table ht hn hindex
  cases hname : r.index with
  | none =>
      rw [hname] at hindex
      obtain rfl : none = index := Option.some.inj hindex
      refine ⟨_, hproper.lists_matching_selects hvalues hk _, ?_⟩
      rw [PageRequest.page_query_table ht hname hlimit hc hk]
      exact mapError_eq_ok_iff.mpr (hproper.sound.query_all hproper.numeric)
  | some name =>
      rw [hname] at hindex
      obtain ⟨i, hi, rfl⟩ := Option.map_eq_some_iff.mp hindex
      have hi : t.index name = .ok i := by rw [IndexedTable.index, hi]
      refine ⟨_, hproper.lists_viewOf (fun _ _ _ => IndexedTable.matchesKey_of_positionIn) _, ?_⟩
      rw [PageRequest.page_query_index ht hname hi hlimit hc hk]
      exact (hproper.serves_viewOf (fun _ _ hq => mapError_eq_ok_iff.mpr hq) _ _ none).first

/-- Without a limit, a scan reads all items that its table or index shows. -/
theorem exists_page_scan (hs : s.Sound) {r : Scan} (ht : s.table r.table = .ok t)
    (hn : t.Numeric) (hindex : t.named r.index = some index)
    (hlimit : s.pageLimit r.limit = .ok none) :
    ∃ items, t.Lists index true (fun _ => true) items ∧
      (∀ x ∈ items, x ∈ t.table.items ∧ ∃ q, t.positionIn index x = .ok q) ∧
      (PageRequest.scan r).page s none = .ok ⟨items, none⟩ := by
  have hproper := hs.proper_of_table ht hn hindex
  refine ⟨_, hproper.lists_viewOf (fun _ _ _ _ => rfl) true, ?_, ?_⟩
  · intro x hx
    obtain ⟨e, he, rfl⟩ := List.mem_map.mp (mem_inOrder.mp hx)
    obtain ⟨hitem, hq, -⟩ := IndexedTable.mem_viewOf.mp he
    exact ⟨hitem, e.1, hq⟩
  · rw [PageRequest.page_scan ht hindex hlimit]
    exact (hproper.serves_viewOf (fun _ _ hq => mapError_eq_ok_iff.mpr hq) _ _ none).first

/-- The scan that has the key condition of a query as its filter. -/
def scanFor (r : Query) : Scan where
  table := r.table
  index := r.index
  filter := some r.keyCondition
  values := r.values
  limit := r.limit
  startKey := []
  consistentRead := r.consistentRead

/-- A query without a limit is answered with what a scan shows through its condition. -/
theorem scan_of_query (hs : s.Sound) {r : Query} (hn : ∀ t, s.table r.table = .ok t → t.Numeric)
    (hlimit : s.pageLimit r.limit = .ok none) (hfilter : r.filter = none)
    (hstart : r.startKey = []) (hvalues : NumericValues r.values) {a : PageRead}
    (h : s.query r = .ok a) :
    ∃ b, s.scan (scanFor r) = .ok b ∧ a.items = inOrder (r.forward.getD true) b.items := by
  obtain ⟨t, index, c, k, ht, hindex, hc, hk⟩ := query_eq_ok h
  have hproper := hs.proper_of_table ht (hn t ht) hindex
  obtain ⟨items, hlists, hquery⟩ := exists_page_query hs ht (hn t ht) hindex hlimit hvalues hc hk
  obtain ⟨all, hall, hshown, hscan⟩ :=
    exists_page_scan (r := scanFor r) hs ht (hn t ht) hindex hlimit
  have hread : readFilter (some r.keyCondition) = .ok (some c) := by
    have hblank := Condition.allBlank_of_ofText (readCondition_eq_ok_iff.mp hc)
    rw [readFilter, hblank, if_neg Bool.false_ne_true, hc]
    rfl
  have heval : ∀ x ∈ all, c.eval x r.values = .ok ((t.schemaOf index).selects k x) := by
    intro x hx
    obtain ⟨hitem, _, hq⟩ := hshown x hx
    exact (hproper.eval_eq_selects hvalues hk hitem hq).1
  have hanswer := answer_eq_filter ⟨all, none⟩ heval
  rw [query_eq_page (by rw [hfilter]; rfl) hstart, hquery] at h
  cases h
  have hb : s.scan (scanFor r) = answer ⟨all, none⟩ (some c) r.values := by
    rw [scan_eq_page (r := scanFor r) hread rfl, hscan]
    rfl
  exact ⟨_, hb.trans hanswer, hlists.unique ((hall.filter _).inOrder _)⟩

/-- Through an index that has the key of its table, a query is answered as on the table. -/
theorem query_index_eq (hs : s.Sound) {r : Query} (ht : s.table r.table = .ok t) (hn : t.Numeric)
    (hvalues : NumericValues r.values) {name : String} (hi : t.index name = .ok t.table.schema)
    (hstart : ∀ c k, readCondition r.keyCondition = .ok c →
      KeyCondition.ofCondition t.table.schema r.values c = .ok k →
      ∀ key ∈ startOf r.startKey, t.StartsIn k key) :
    s.query { r with index := some name } = s.query { r with index := none } := by
  have hproper := hs.proper_of_table ht hn (IndexedTable.named_of_index hi)
  rw [query, query]
  simp only [ht, hi, bind, Except.bind]
  cases s.pageLimit r.limit with
  | error e => rfl
  | ok limit =>
      cases readFilter r.filter with
      | error e => rfl
      | ok filter =>
          cases hc : readCondition r.keyCondition with
          | error e => rfl
          | ok c =>
              cases hk : KeyCondition.ofCondition t.table.schema r.values c with
              | error e =>
                  simp only [hk]
                  rfl
              | ok k =>
                  have hpages := hproper.readIndex_eq_query hvalues hk (r.forward.getD true)
                    limit (hstart c k hc hk)
                  simp only [hk, Except.mapError, hpages]

/-- The read paths agree, on every store that is reached and has numbers in its keys and values
where numbers belong.

A query without a limit that is answered has the items that a scan shows with the key condition as
its filter, in the same order, or in the reverse order if it reads backward.  And a query through
an index that has the key of the table is answered as on the table, page by page, if its start
key, where it has one, lies in the partition that is queried. -/
theorem read_paths_agree (s : Store) (hs : s.Reachable) (r : Query) (t : IndexedTable)
    (ht : s.table r.table = .ok t) (hn : t.Numeric) (hvalues : NumericValues r.values) :
    (r.limit = none → s.defaultLimit = none → r.filter = none → r.startKey = [] →
      ∀ a, s.query r = .ok a → ∃ b, s.scan (scanFor r) = .ok b ∧
        a.items = if r.forward.getD true then b.items else b.items.reverse) ∧
    ∀ name, t.index name = .ok t.table.schema →
      (∀ c k, readCondition r.keyCondition = .ok c →
        KeyCondition.ofCondition t.table.schema r.values c = .ok k →
        ∀ key ∈ startOf r.startKey, t.StartsIn k key) →
      s.query { r with index := some name } = s.query { r with index := none } := by
  refine ⟨?_, ?_⟩
  · intro hlimit hdefault hfilter hstart a ha
    have hnone : s.pageLimit r.limit = .ok none := by rw [hlimit, pageLimit, hdefault]
    have hnumeric : ∀ t', s.table r.table = .ok t' → t'.Numeric := by
      intro t' ht'
      cases ht.symm.trans ht'
      exact hn
    exact scan_of_query hs.sound hnumeric hnone hfilter hstart hvalues ha
  · intro name hi hstart
    exact query_index_eq hs.sound ht hn hvalues hi hstart

/-- Readings with an index that has the key of the table. -/
def copiedReadings : Store :=
  (Store.mk [("readings", ⟨Table.empty Table.readingSchema, [("copy", Table.readingSchema)]⟩)]
    none).puts "readings" [Table.reading "10" "a", Table.reading "1.0" "b"]

/-- The device's readings from the time 1 on, the latest first. -/
def latestFirst (limit : Option Int) (startKey : Item) : Query :=
  ⟨"readings", none, "at >= :t AND device = :d", none, [(":d", .string "d"), (":t", .number "1")],
    some false, limit, startKey, none⟩

/-- The query is answered, and the scan and the query of the index agree with it. -/
theorem read_paths_agree_readings :
    copiedReadings.query (latestFirst none []) =
      .ok ⟨[Table.reading "10" "a", Table.reading "1.0" "b"], 2, 2, none⟩ ∧
    (∃ b, copiedReadings.scan (scanFor (latestFirst none [])) = .ok b ∧
      [Table.reading "10" "a", Table.reading "1.0" "b"] = b.items.reverse) ∧
    copiedReadings.query (latestFirst (some 1) (Table.reading "10.0" "")) =
      .ok ⟨[Table.reading "1.0" "b"], 1, 1,
        some [("at", .number "1.0"), ("device", .string "d")]⟩ ∧
    copiedReadings.query { latestFirst (some 1) (Table.reading "10.0" "") with
      index := some "copy" } =
    copiedReadings.query { latestFirst (some 1) (Table.reading "10.0" "") with index := none } := by
  have hreachable : copiedReadings.Reachable :=
    Reachable.puts (.createTable (r := ⟨"readings", [⟨"device", .partition⟩, ⟨"at", .sort⟩],
      [⟨"device", .string⟩, ⟨"at", .number⟩], [⟨"copy", [⟨"device", .partition⟩, ⟨"at", .sort⟩]⟩]⟩)
      (a := ⟨"readings"⟩) (.empty none) (by decide +kernel)) "readings" _
  have ht : copiedReadings.table "readings" = .ok ⟨Table.ofPuts Table.readingSchema
      [Table.reading "10" "a", Table.reading "1.0" "b"], [("copy", Table.readingSchema)]⟩ := by
    decide +kernel
  have haccepted : copiedReadings.query (latestFirst none []) =
      .ok ⟨[Table.reading "10" "a", Table.reading "1.0" "b"], 2, 2, none⟩ := by decide +kernel
  refine ⟨haccepted, ?_, by decide +kernel, ?_⟩
  · obtain ⟨b, hb, hitems⟩ := (read_paths_agree copiedReadings hreachable (latestFirst none []) _ ht
      (by decide +kernel) (by decide +kernel)).1 rfl rfl rfl rfl _ haccepted
    exact ⟨b, hb, hitems⟩
  · refine (read_paths_agree copiedReadings hreachable
      (latestFirst (some 1) (Table.reading "10.0" "")) _ ht (by decide +kernel)
      (by decide +kernel)).2 "copy" (by decide +kernel) ?_
    intro c k hc hk key hkey
    have hcondition : readCondition "at >= :t AND device = :d" =
        .ok (.and (.compare (.path ["at"]) .ge (.param ":t"))
          (.compare (.path ["device"]) .eq (.param ":d"))) := by decide +kernel
    cases hcondition.symm.trans hc
    have hparts : KeyCondition.ofCondition Table.readingSchema
        [(":d", .string "d"), (":t", .number "1")]
        (.and (.compare (.path ["at"]) .ge (.param ":t"))
          (.compare (.path ["device"]) .eq (.param ":d"))) =
        .ok ⟨.string "d", some (.ge (.number "1"))⟩ := by decide +kernel
    cases hparts.symm.trans hk
    cases hkey
    exact ⟨by decide +kernel, .string "d", .number "10.0", by decide +kernel, by decide +kernel⟩

end Store

end ItemStore
