import ItemStore.Proofs.Enumeration
import ItemStore.Proofs.Listing

/-!
# The pages of a request

A request is answered by a page that is shown through its filter (`PageRequest.send_eq_page`), so
what its pages go through does not depend on the filter.  A scan, and a query of an index, cut their
pages out of a sorted view, and each page is cut after the position of the key that the page before
ended with.  Following the keys therefore goes through the items of the view once, in their order
(`IndexedTable.Proper.goThrough`), whatever the order is in which the partitions of the table are
gone through while a page is read.
-/

namespace ItemStore

/-! ## Pages before the filter -/

namespace PageRequest

def filter : PageRequest → Option String
  | query r => r.filter
  | scan r => r.filter

def table : PageRequest → String
  | query r => r.table
  | scan r => r.table

def unfiltered : PageRequest → PageRequest
  | query r => query { r with filter := none }
  | scan r => scan { r with filter := none }

/-- The page that a store cuts for the request after a key, before the filter. -/
def page (s : Store) (request : PageRequest) (start : Option Item) : Except StoreError Page :=
  ((request.unfiltered.startingAfter start).send Store.client s).1.map
    fun answer => ⟨answer.items, answer.lastKey⟩

variable {s : Store} {request : PageRequest} {f : Option Condition}

theorem limit_unfiltered (request : PageRequest) : request.unfiltered.limit = request.limit := by
  cases request <;> rfl

/-- Without a filter the same is read. -/
theorem sourceOf_eq_map (h : Store.readFilter request.filter = .ok f) :
    s.sourceOf request = (s.sourceOf request.unfiltered).map fun src => ⟨src.read, f⟩ := by
  cases request with
  | query r =>
      have h : Store.readFilter r.filter = .ok f := h
      show s.querySource r = (s.querySource { r with filter := none }).map _
      rw [Store.querySource, Store.querySource, h]
      cases s.table r.table with
      | error e => rfl
      | ok t =>
          cases Store.readCondition r.keyCondition with
          | error e => rfl
          | ok c =>
              cases r.index with
              | none =>
                  simp only [bind, Except.bind, Store.readFilter]
                  cases KeyCondition.ofCondition t.table.schema r.values c <;> rfl
              | some name =>
                  simp only [bind, Except.bind, Store.readFilter]
                  cases t.index name with
                  | error e => rfl
                  | ok i =>
                      cases hk : KeyCondition.ofCondition i r.values c <;>
                        simp [hk, Except.map, Except.mapError]
  | scan r =>
      have h : Store.readFilter r.filter = .ok f := h
      show s.scanSource r = (s.scanSource { r with filter := none }).map _
      rw [Store.scanSource, Store.scanSource, h]
      cases s.table r.table with
      | error e => rfl
      | ok t =>
          cases r.index with
          | none => rfl
          | some name =>
              simp only [bind, Except.bind, Store.readFilter]
              cases t.index name <;> rfl

/-- A request whose limit is refused fails, whatever its filter and its start are. -/
theorem send_of_limit_error {e : StoreError} (h : s.pageLimit request.limit = .error e)
    (start : Option Item) :
    ∃ e', ((request.startingAfter start).send Store.client s).1 = .error e' ∧
      request.page s start = .error e' := by
  cases request with
  | query r =>
      have h : s.pageLimit r.limit = .error e := h
      show ∃ e', s.query { r with startKey := start.getD [] } = .error e' ∧
        (s.query { r with filter := none, startKey := start.getD [] }).map _ = .error e'
      rw [Store.query, Store.query]
      cases s.table r.table with
      | error e => exact ⟨e, rfl, rfl⟩
      | ok t =>
          simp only [h]
          exact ⟨e, rfl, rfl⟩
  | scan r =>
      have h : s.pageLimit r.limit = .error e := h
      show ∃ e', s.scan { r with startKey := start.getD [] } = .error e' ∧
        (s.scan { r with filter := none, startKey := start.getD [] }).map _ = .error e'
      rw [Store.scan, Store.scan]
      cases s.table r.table with
      | error e => exact ⟨e, rfl, rfl⟩
      | ok t =>
          simp only [h]
          exact ⟨e, rfl, rfl⟩

/-- The page is what the source of the request reads. -/
theorem page_eq_bind (request : PageRequest) {limit : Option Nat}
    (h : s.pageLimit request.limit = .ok limit) (start : Option Item) :
    request.page s start = s.sourceOf request.unfiltered >>=
      fun src => src.read limit (Store.startOf (start.getD [])) := by
  have hlimit : s.pageLimit request.unfiltered.limit = .ok limit := by rw [limit_unfiltered, h]
  have hunfiltered : s.sourceOf request.unfiltered =
      (s.sourceOf request.unfiltered).map fun src => ⟨src.read, none⟩ := by
    cases request <;> exact sourceOf_eq_map rfl
  rw [page, Store.send_startingAfter hlimit, hunfiltered]
  cases s.sourceOf request.unfiltered with
  | error e => rfl
  | ok src =>
      show (src.read limit _ >>= fun page => Store.answer page none _).map _ = src.read limit _
      cases src.read limit (Store.startOf (start.getD [])) <;> rfl

/-- A request is answered by its page, shown through its filter. -/
theorem send_eq_page (s : Store) (request : PageRequest)
    (h : Store.readFilter request.filter = .ok f) (start : Option Item) :
    ((request.startingAfter start).send Store.client s).1 =
      request.page s start >>= fun page => Store.answer page f request.values := by
  cases hlimit : s.pageLimit request.limit with
  | error e =>
      obtain ⟨e', hsend, hpage⟩ := send_of_limit_error hlimit start
      rw [hsend, hpage]
      rfl
  | ok limit =>
      rw [Store.send_startingAfter hlimit, page_eq_bind request hlimit, sourceOf_eq_map h]
      cases s.sourceOf request.unfiltered <;> rfl

variable {t : IndexedTable} {index : Option KeySchema} {limit : Option Nat}

/-- A scan cuts its pages out of the view of all items. -/
theorem page_scan {r : Scan} (ht : s.table r.table = .ok t) (hindex : t.named r.index = some index)
    (hlimit : s.pageLimit r.limit = .ok limit) (start : Option Item) :
    (scan r).page s start =
      (t.viewOf index fun _ => true).fetch (fun x => (t.positionIn index x).mapError .key)
        (t.keyIn index) true limit (Store.startOf (start.getD [])) := by
  rw [page_eq_bind (scan r) hlimit]
  show s.scanSource { r with filter := none } >>= _ = _
  rw [Store.scanSource, ht]
  cases hname : r.index with
  | none =>
      rw [hname] at hindex
      obtain rfl : none = index := Option.some.inj hindex
      simp only [bind, Except.bind, Store.readFilter]
      rw [IndexedTable.scan_eq_fetch, View.mapError_fetch]
      rfl
  | some name =>
      rw [hname] at hindex
      obtain ⟨i, hi, rfl⟩ := Option.map_eq_some_iff.mp hindex
      have hi : t.index name = .ok i := by rw [IndexedTable.index, hi]
      simp only [bind, Except.bind, Store.readFilter, hi]
      exact IndexedTable.readIndex_eq_fetch t i _ _ true limit

variable {r : Query} {c : Condition} {k : KeyCondition}

/-- A query of an index cuts its pages out of the view of the items that it selects. -/
theorem page_query_index {name : String} {i : KeySchema} (ht : s.table r.table = .ok t)
    (hname : r.index = some name) (hi : t.index name = .ok i)
    (hlimit : s.pageLimit r.limit = .ok limit)
    (hc : Store.readCondition r.keyCondition = .ok c)
    (hk : KeyCondition.ofCondition i r.values c = .ok k) (start : Option Item) :
    (query r).page s start =
      (t.viewOf (some i) (IndexedTable.matchesKey k)).fetch
        (fun x => (t.positionIn (some i) x).mapError .key) (t.keyIn (some i))
        (r.forward.getD true) limit (Store.startOf (start.getD [])) := by
  rw [page_eq_bind (query r) hlimit]
  show s.querySource { r with filter := none } >>= _ = _
  rw [Store.querySource, ht]
  simp only [bind, Except.bind, Store.readFilter, hname, hi, hc, hk, Except.mapError]
  exact IndexedTable.readIndex_eq_fetch t i _ _ _ limit

/-- A query of a table walks a partition. -/
theorem page_query_table (ht : s.table r.table = .ok t) (hname : r.index = none)
    (hlimit : s.pageLimit r.limit = .ok limit)
    (hc : Store.readCondition r.keyCondition = .ok c)
    (hk : KeyCondition.ofCondition t.table.schema r.values c = .ok k) (start : Option Item) :
    (query r).page s start =
      (t.table.query k (r.forward.getD true) limit (Store.startOf (start.getD []))).mapError
        .key := by
  rw [page_eq_bind (query r) hlimit]
  show s.querySource { r with filter := none } >>= _ = _
  rw [Store.querySource, ht]
  simp only [bind, Except.bind, Store.readFilter, hname, hc, hk, Except.mapError]

/-- The order of the partitions does not show in a page. -/
theorem page_of_enumerates {s' : Store} (h : s'.Enumerates s) (hs : s.Sound)
    (hn : ∀ t, s.table request.table = .ok t → t.Numeric) (start : Option Item) :
    request.page s' start = request.page s start := by
  cases request with
  | query r =>
      show (s'.query { r with filter := none, startKey := start.getD [] }).map _ = _
      rw [h.query_eq (r := { r with filter := none, startKey := start.getD [] }) hs hn]
      rfl
  | scan r =>
      show (s'.scan { r with filter := none, startKey := start.getD [] }).map _ = _
      rw [h.scan_eq (r := { r with filter := none, startKey := start.getD [] }) hs hn]
      rfl

end PageRequest

/-! ## Going through the items -/

/-- Following the last keys, from no start key on, goes through the items once, in pages of `n`.
Each last key is that of the last item of its page: it has the attributes that are named, as the
item has them, and nothing else.  It is accepted as the start key of the next page. -/
def Page.GoThrough (fetch : Option Item → Except StoreError Page) (n : Nat) (names : List String)
    (items : List Item) : Prop :=
  ∃ pages, Page.Chain fetch none pages ∧ pages.length = items.length / n + 1 ∧
    pages.flatMap (·.items) = items ∧
    ∀ page ∈ pages, ∀ key ∈ page.lastKey,
      (∃ x, page.items.getLast? = some x ∧ ∀ name, NameMap.get? key name =
        if name ∈ names then NameMap.get? x name else none) ∧
      (∀ name ∈ names, (NameMap.get? key name).isSome = true) ∧
      ∃ next, fetch (some key) = .ok next

/-- Pages that are cut out of a view, each after the key that the page before ended with, go through
the items of the view. -/
theorem IndexedTable.Proper.goThrough {t : IndexedTable} {index : Option KeySchema}
    (h : t.Proper index) {wanted : Position → Bool} {forward : Bool} {n : Nat} (hpos : 0 < n)
    {fetch : Option Item → Except StoreError Page}
    (hfetch : ∀ start, fetch start = (t.viewOf index wanted).fetch
      (fun x => (t.positionIn index x).mapError .key) (t.keyIn index) forward (some n)
        (Store.startOf (start.getD []))) :
    Page.GoThrough fetch n (t.keyNames index)
      (inOrder forward ((t.viewOf index wanted).map (·.2))) := by
  have hview := h.serves_viewOf (fun x q hq => mapError_eq_ok_iff.mpr hq :
    ∀ x q, t.positionIn index x = .ok q →
      (t.positionIn index x).mapError StoreError.key = .ok q) wanted forward (some n)
  have hplaced : ∀ x ∈ inOrder forward ((t.viewOf index wanted).map (·.2)),
      ∃ q, t.positionIn index x = .ok q := by
    intro x hx
    obtain ⟨e, he, rfl⟩ := List.mem_map.mp (mem_inOrder.mp hx)
    exact ⟨_, (mem_viewOf.mp he).2.1⟩
  have hstart : ∀ x ∈ inOrder forward ((t.viewOf index wanted).map (·.2)),
      Store.startOf (t.keyIn index x) = some (t.keyIn index x) := by
    intro x hx
    obtain ⟨q, hq⟩ := hplaced x hx
    rw [Store.startOf, if_neg fun hnil => keyIn_ne_nil hq (List.isEmpty_iff.mp hnil)]
  have hserves : Page.Serves fetch (some n) (t.keyIn index)
      (inOrder forward ((t.viewOf index wanted).map (·.2))) := by
    refine ⟨(hfetch none).trans hview.first, ?_⟩
    intro ys x zs hsplit
    have hx : x ∈ inOrder forward ((t.viewOf index wanted).map (·.2)) := by
      rw [hsplit]
      exact List.mem_append_right _ List.mem_cons_self
    rw [hfetch, Option.getD_some, hstart x hx]
    exact hview.next ys x zs hsplit
  obtain ⟨pages, hchain, hcount, hflat, hkeys⟩ := hserves.exists_chain (by simpa using hpos)
  refine ⟨pages, hchain, hcount, hflat, ?_⟩
  intro page hpage key hkey
  obtain ⟨x, hx, hlast, rfl⟩ := hkeys page hpage key hkey
  obtain ⟨q, hq⟩ := hplaced x hx
  obtain ⟨ys, zs, hsplit⟩ := List.append_of_mem hx
  refine ⟨⟨x, hlast, get?_keyIn t index x⟩, ?_, _, hserves.next ys x zs hsplit⟩
  intro name hname
  rw [get?_keyIn, if_pos hname]
  exact isSome_of_positionIn hq hname

/-- Whether an item carries the key with the declared types, and the key satisfies a key
condition. -/
def KeySchema.selects (s : KeySchema) (k : KeyCondition) (item : Item) : Bool :=
  match s.extract item with
  | .ok (pk, sk) => k.matches pk sk
  | .error _ => false

theorem KeySchema.selects_of_extract {s : KeySchema} {k : KeyCondition} {item : Item}
    {pk sk : SortKey} (h : s.extract item = .ok (pk, sk)) :
    s.selects k item = k.matches pk sk := by
  rw [selects, h]

/-- What a position in an index satisfies is what the index key satisfies. -/
theorem IndexedTable.matchesKey_of_positionIn {t : IndexedTable} {i : KeySchema} {k : KeyCondition}
    {item : Item} {q : Position} (hq : t.positionIn (some i) item = .ok q) :
    matchesKey k q = i.selects k item := by
  obtain ⟨pk, sk, -, ipk, isk, hi, rfl⟩ := positionIn_eq_ok_iff.mp hq
  rw [KeySchema.selects_of_extract hi]
  rfl

namespace Store

/-- What the pages of scans, and of queries of an index, go through.  While each page is read, the
store may go through the partitions of its tables in another order.  A page does not depend on
it, and the answer to a request is its page, shown through the filter.

For every limit the pages of a scan go through all items that have the table key and, for an index,
the index key; those of a query of an index through the items of which the index key satisfies the
key condition as well.  Each of these items is met once, in the order of the index key and then
of the table key, or against it. -/
theorem pages_go_through (s : Store) (hs : s.Reachable) (name : String) (t : IndexedTable)
    (ht : s.table name = .ok t) (hn : t.Numeric) (enumeration : Option Item → Store)
    (henum : ∀ start, (enumeration start).Enumerates s) (n : Nat) (hpos : 0 < n) :
    (∀ request : PageRequest, request.table = name → ∀ start,
      request.page (enumeration start) start = request.page s start ∧
      ∀ f, readFilter request.filter = .ok f →
        ((request.startingAfter start).send Store.client (enumeration start)).1 =
          request.page s start >>= fun page => answer page f request.values) ∧
    (∀ r : Scan, r.table = name → ∀ index, t.named r.index = some index →
      s.pageLimit r.limit = .ok (some n) →
      ∃ items, t.Lists index true (fun _ => true) items ∧
        Page.GoThrough (fun start => (PageRequest.scan r).page (enumeration start) start) n
          (t.keyNames index) items) ∧
    ∀ r : Query, r.table = name → ∀ indexName i c k, r.index = some indexName →
      t.index indexName = .ok i → readCondition r.keyCondition = .ok c →
      KeyCondition.ofCondition i r.values c = .ok k → s.pageLimit r.limit = .ok (some n) →
      ∃ items, t.Lists (some i) (r.forward.getD true) (i.selects k) items ∧
        Page.GoThrough (fun start => (PageRequest.query r).page (enumeration start) start) n
          (t.keyNames (some i)) items := by
  have hpage : ∀ request : PageRequest, request.table = name → ∀ start,
      request.page (enumeration start) start = request.page s start := by
    intro request hname start
    refine PageRequest.page_of_enumerates (henum start) hs.sound ?_ start
    intro t' ht'
    rw [hname, ht] at ht'
    cases ht'
    exact hn
  refine ⟨?_, ?_, ?_⟩
  · intro request hname start
    refine ⟨hpage request hname start, ?_⟩
    intro f hf
    rw [PageRequest.send_eq_page _ request hf, hpage request hname start]
  · intro r hname index hindex hlimit
    have hproper := hs.sound.proper_of_table ht hn hindex
    refine ⟨_, hproper.lists_viewOf (fun _ _ _ _ => rfl) true, hproper.goThrough hpos ?_⟩
    intro start
    rw [hpage (.scan r) hname]
    exact PageRequest.page_scan (hname ▸ ht) hindex hlimit start
  · intro r hname indexName i c k hindexName hi hc hk hlimit
    have hproper := hs.sound.proper_of_table ht hn (IndexedTable.named_of_index hi)
    refine ⟨_, hproper.lists_viewOf (fun _ _ _ => IndexedTable.matchesKey_of_positionIn) _,
      hproper.goThrough hpos ?_⟩
    intro start
    rw [hpage (.query r) hname]
    exact PageRequest.page_query_index (hname ▸ ht) hindexName hi hlimit hc hk start

/-- A reading of another device. -/
def otherReading : Item := [("at", .number "1.0"), ("device", .string "e"), ("note", .string "a")]

/-- Readings of two devices, with an index of their notes. -/
def notedReadings : Store :=
  (Store.mk [("readings", ⟨Table.empty Table.readingSchema,
    [("notes", ⟨⟨"note", .string⟩, none⟩)]⟩)] none).puts "readings"
      [Table.reading "2" "b", otherReading]

theorem reachable_notedReadings : notedReadings.Reachable :=
  Reachable.puts (.createTable (r := ⟨"readings", [⟨"device", .partition⟩, ⟨"at", .sort⟩],
    [⟨"device", .string⟩, ⟨"at", .number⟩, ⟨"note", .string⟩],
    [⟨"notes", [⟨"note", .partition⟩]⟩]⟩) (a := ⟨"readings"⟩) (.empty none) (by decide +kernel))
    "readings" _

/-- Each item of the index alone on a page, and an empty page at the end. -/
def noteScan : Scan := ⟨"readings", some "notes", none, [], some 1, [], none⟩

/-- After the first page the devices are gone through the other way round. -/
theorem pages_go_through_notes :
    ∃ pages, Page.Chain (fun start => (PageRequest.scan noteScan).page
        (notedReadings.reorder (if start.isSome then List.reverse else id)) start) none pages ∧
      pages.length = 3 := by
  obtain ⟨-, hscan, -⟩ := pages_go_through notedReadings reachable_notedReadings "readings"
    ⟨Table.ofPuts Table.readingSchema [Table.reading "2" "b", otherReading],
      [("notes", ⟨⟨"note", .string⟩, none⟩)]⟩ (by decide +kernel) (by decide +kernel)
    (fun start => notedReadings.reorder (if start.isSome then List.reverse else id))
    (fun start => enumerates_reorder (fun ps => by
      split
      · exact List.reverse_perm ps
      · exact List.Perm.refl ps) _) 1 (by decide)
  obtain ⟨items, hlists, pages, hchain, hcount, -⟩ :=
    hscan noteScan rfl _ rfl (by decide +kernel)
  have hitems : items.length = 2 := by
    rw [hlists.perm.length_eq]
    decide +kernel
  rw [hitems] at hcount
  exact ⟨pages, hchain, hcount⟩

end Store

end ItemStore
