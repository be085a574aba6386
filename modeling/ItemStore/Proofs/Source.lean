import ItemStore.Proofs.RequestCriteria
import ItemStore.Proofs.Store

/-!
# What a request reads

A query and a scan find out what to read before they cut a page out of it: a `Source` is a way of
reading pages, and a filter.  It depends on nothing that the paging of a request does
(`query_eq_source`, `scan_eq_source`).  A source that serves items under a filter that keeps some
of them gives these, page by page, to the cursor of a listing (`Source.Serves.exists_chain`),
whatever the limit is; only the number of the pages depends on it, and on how many items there are
before the filter.
-/

namespace ItemStore

/-- A way of reading pages, with the filter that they are shown through. -/
structure Source where
  read : Option Nat → Option Item → Except StoreError Page
  filter : Option Condition

namespace Source

/-- Read a page and show it through the filter. -/
def page (src : Source) (values : NameMap Value) (limit : Option Nat) (start : Option Item) :
    Except StoreError PageRead := do
  let page ← src.read limit start
  Store.answer page src.filter values

/-- The source serves the items, of which the filter keeps some. -/
structure Serves (src : Source) (values : NameMap Value) (kept : Item → Bool)
    (items : List Item) : Prop where
  pages : ∀ limit, ∃ keyOf, Page.Serves (src.read limit) limit keyOf items ∧
    ∀ x ∈ items, keyOf x ≠ []
  filtered : ∀ f ∈ src.filter, ∀ x, f.eval x values = .ok (kept x)
  unfiltered : src.filter = none → ∀ x, kept x = true

end Source

namespace Store

variable {s : Store}

/-- What a query reads. -/
def querySource (s : Store) (r : Query) : Except StoreError Source := do
  let t ← s.table r.table
  let filter ← readFilter r.filter
  let condition ← readCondition r.keyCondition
  match r.index with
  | none => do
      let c ← (KeyCondition.ofCondition t.table.schema r.values condition).mapError .keyCondition
      .ok ⟨fun limit start =>
        (t.table.query c (r.forward.getD true) limit start).mapError .key, filter⟩
  | some name => do
      let index ← t.index name
      let c ← (KeyCondition.ofCondition index r.values condition).mapError .keyCondition
      .ok ⟨fun limit start => t.readIndex index
        (t.indexView index (IndexedTable.matchesKey c)) start (r.forward.getD true) limit, filter⟩

/-- What a scan reads. -/
def scanSource (s : Store) (r : Scan) : Except StoreError Source := do
  let t ← s.table r.table
  let filter ← readFilter r.filter
  match r.index with
  | none => .ok ⟨fun limit start => (t.table.scan limit start).mapError .key, filter⟩
  | some name => do
      let index ← t.index name
      .ok ⟨fun limit start =>
        t.readIndex index (t.indexView index fun _ => true) start true limit, filter⟩

theorem query_eq_source {r : Query} {limit : Option Nat} (h : s.pageLimit r.limit = .ok limit) :
    s.query r = s.querySource r >>= fun src => src.page r.values limit (startOf r.startKey) := by
  rw [query, querySource, h]
  cases s.table r.table with
  | error e => rfl
  | ok t =>
      cases readFilter r.filter with
      | error e => rfl
      | ok filter =>
          cases readCondition r.keyCondition with
          | error e => rfl
          | ok condition =>
              cases r.index with
              | none =>
                  simp only [bind, Except.bind]
                  cases KeyCondition.ofCondition t.table.schema r.values condition <;> rfl
              | some name =>
                  simp only [bind, Except.bind]
                  cases t.index name with
                  | error e => rfl
                  | ok index =>
                      cases h : KeyCondition.ofCondition index r.values condition <;>
                        simp [h, Except.mapError, Source.page, bind, Except.bind]

theorem scan_eq_source {r : Scan} {limit : Option Nat} (h : s.pageLimit r.limit = .ok limit) :
    s.scan r = s.scanSource r >>= fun src => src.page r.values limit (startOf r.startKey) := by
  rw [scan, scanSource, h]
  cases s.table r.table with
  | error e => rfl
  | ok t =>
      cases readFilter r.filter with
      | error e => rfl
      | ok filter =>
          cases r.index with
          | none => rfl
          | some name =>
              simp only [bind, Except.bind]
              cases t.index name <;> rfl

/-! ## Filters -/

theorem keepMatching_eq_filter {f : Condition} {values : NameMap Value} {kept : Item → Bool}
    {items : List Item} (h : ∀ x ∈ items, f.eval x values = .ok (kept x)) :
    keepMatching f values items = .ok (items.filter kept) := by
  induction items with
  | nil => rfl
  | cons x xs ih =>
      rw [keepMatching, h x List.mem_cons_self, ih fun y hy => h y (List.mem_cons_of_mem _ hy),
        List.filter_cons]
      rfl

/-- A page shown through a filter that tells of each of its items whether to keep it. -/
theorem answer_eq_filter {f : Condition} {values : NameMap Value} {kept : Item → Bool}
    (page : Page) (h : ∀ x ∈ page.items, f.eval x values = .ok (kept x)) :
    answer page (some f) values = .ok ⟨page.items.filter kept,
      countOf (page.items.filter kept).length, countOf page.items.length, page.lastKey⟩ := by
  simp only [answer, keepMatching_eq_filter h]
  rfl

end Store

namespace Source

variable {src : Source} {values : NameMap Value} {kept : Item → Bool} {items : List Item}

/-- A page shown through a filter that keeps some items. -/
def keep (kept : Item → Bool) (page : Page) : Page := ⟨page.items.filter kept, page.lastKey⟩

theorem Serves.answer (h : src.Serves values kept items) (page : Page) :
    ∃ a, Store.answer page src.filter values = .ok a ∧
      (⟨a.items, a.lastKey⟩ : Page) = keep kept page := by
  cases hf : src.filter with
  | none =>
      have hall : page.items.filter kept = page.items :=
        List.filter_eq_self.mpr fun x _ => h.unfiltered hf x
      refine ⟨_, rfl, ?_⟩
      rw [keep, hall]
  | some f =>
      exact ⟨_, Store.answer_eq_filter page fun x _ => h.filtered f hf x, rfl⟩

/-- There is a first page. -/
theorem Serves.exists_first (h : src.Serves values kept items) (limit : Option Nat) :
    ∃ a, src.page values limit none = .ok a := by
  obtain ⟨keyOf, hserves, -⟩ := h.pages limit
  obtain ⟨a, ha, -⟩ := h.answer (Page.cut limit keyOf items)
  refine ⟨a, ?_⟩
  rw [page, hserves.first]
  exact ha

/-- The page that a listing gets from the source. -/
def fetch (src : Source) (values : NameMap Value) (limit : Option Nat) (start : Option Item) :
    Except (RepositoryError StoreError) Page :=
  match src.page values limit (Store.startOf (start.getD [])) with
  | .ok a => .ok ⟨a.items, a.lastKey⟩
  | .error e => .error (.storage e)

theorem Serves.fetch_of_read (h : src.Serves values kept items) {limit : Option Nat}
    {start : Option Item} {page : Page} (hstart : ∀ key ∈ start, key ≠ [])
    (hread : src.read limit start = .ok page) :
    src.fetch values limit start = .ok (keep kept page) := by
  have hsame : Store.startOf (start.getD []) = start := by
    cases start with
    | none => rfl
    | some key =>
        cases key with
        | nil => exact absurd rfl (hstart [] rfl)
        | cons e key => rfl
  obtain ⟨a, ha, hpage⟩ := h.answer page
  have hsrc : src.page values limit start = .ok a := by
    rw [Source.page, hread]
    exact ha
  rw [fetch, hsame, hsrc]
  exact congrArg Except.ok hpage

/-- A chain of pages is one of pages shown through the filter. -/
theorem Serves.chain_keep (h : src.Serves values kept items) {limit : Option Nat}
    {start : Option Item} {pages : List Page} (hchain : Page.Chain (src.read limit) start pages)
    (hstart : ∀ key ∈ start, key ≠ []) (hkeys : ∀ page ∈ pages, ∀ key ∈ page.lastKey, key ≠ []) :
    Page.Chain (src.fetch values limit) start (pages.map (keep kept)) := by
  induction hchain with
  | last hpage hlast => exact Page.Chain.last (h.fetch_of_read hstart hpage) hlast
  | @more start page key pages hpage hmore hchain ih =>
      refine Page.Chain.more (h.fetch_of_read hstart hpage) hmore (ih ?_ ?_)
      · intro key' hkey'
        obtain rfl : key = key' := Option.some.inj hkey'
        exact hkeys page List.mem_cons_self key hmore
      · exact fun p hp => hkeys p (List.mem_cons_of_mem _ hp)

theorem flatMap_keep (kept : Item → Bool) (pages : List Page) :
    (pages.map (keep kept)).flatMap (·.items) = (pages.flatMap (·.items)).filter kept := by
  rw [List.flatMap_map, List.filter_flatMap]
  rfl

theorem count_le (limit : Option Nat) (n : Nat) : Page.count limit n ≤ n + 1 := by
  cases limit with
  | none => exact Nat.le_add_left 1 n
  | some l => exact Nat.succ_le_succ (Nat.div_le_self n l)

/-- A listing takes a step for each page and one for each item that it has. -/
theorem steps_lt {pages : List Page} {limit : Option Nat}
    (hflat : pages.flatMap (·.items) = items.filter kept)
    (hcount : pages.length = Page.count limit items.length) :
    pages.length + (pages.flatMap (·.items)).length < 2 * (items.length + 2) := by
  have hfilter : (items.filter kept).length ≤ items.length := List.length_filter_le _ _
  have hpages := count_le limit items.length
  rw [hflat, hcount]
  omega

/-- Whatever the limit is, the pages that a listing gets have the items that the filter keeps, and
there are as many of them as the limit cuts all items into. -/
theorem Serves.exists_chain (h : src.Serves values kept items) {limit : Option Nat}
    (hpos : ∀ n ∈ limit, 0 < n) :
    ∃ pages, Page.Chain (src.fetch values limit) none pages ∧
      pages.flatMap (·.items) = items.filter kept ∧
      pages.length = Page.count limit items.length ∧
      ∀ page ∈ pages, ∀ key ∈ page.lastKey, key ≠ [] := by
  obtain ⟨keyOf, hserves, hne⟩ := h.pages limit
  obtain ⟨pages, hchain, hcount, hflat, hkeys⟩ := hserves.exists_chain hpos
  have hnonempty : ∀ page ∈ pages, ∀ key ∈ page.lastKey, key ≠ [] := by
    intro page hpage key hkey
    obtain ⟨x, hx, -, rfl⟩ := hkeys page hpage key hkey
    exact hne x hx
  refine ⟨pages.map (keep kept), h.chain_keep hchain nofun hnonempty, ?_, ?_, ?_⟩
  · rw [flatMap_keep, hflat]
  · rw [List.length_map, hcount]
  · intro page hpage
    obtain ⟨p, hp, rfl⟩ := List.mem_map.mp hpage
    exact hnonempty p hp

end Source

/-! ## What is selected -/

namespace IndexedTable

variable {t : IndexedTable} {index : Option KeySchema} {item : Item}

/-- The items that a key condition selects, and without one all that are shown, in the order in
which they are read.  A query of the table selects within one partition, a query of an index from
its view. -/
def selected (t : IndexedTable) (index : Option KeySchema) (k : Option KeyCondition)
    (forward : Bool) : List Item :=
  inOrder forward <| match index, k with
    | none, some k => t.table.matching k
    | some i, some k => (t.viewOf (some i) (matchesKey k)).map (·.2)
    | index, none => (t.viewOf index fun _ => true).map (·.2)

theorem Proper.numeric_key (h : t.Proper index) (hitem : item ∈ t.table.items) :
    (index.getD t.table.schema).numeric item = true := by
  cases index with
  | none => exact h.numeric item hitem
  | some i => exact h.indexNumeric i rfl item hitem

theorem Proper.lists_selected (h : t.Proper index) {k : KeyCondition} {p : Item → Bool}
    (hp : ∀ x ∈ t.table.items, ∀ pk sk,
      (index.getD t.table.schema).extract x = .ok (pk, sk) → k.matches pk sk = p x ∧ k.Numeric)
    (forward : Bool) : t.Lists index forward p (t.selected index (some k) forward) := by
  cases index with
  | none => exact h.lists_matching hp forward
  | some i =>
      refine h.lists_viewOf ?_ forward
      intro x hx q hq
      obtain ⟨pk, sk, -, ipk, isk, hxi, rfl⟩ := positionIn_eq_ok_iff.mp hq
      exact (hp x hx ipk isk hxi).1

theorem Proper.lists_shown (h : t.Proper index) (forward : Bool) :
    t.Lists index forward (fun _ => true) (t.selected index none forward) := by
  have hview : t.selected index none forward =
      inOrder forward ((t.viewOf index fun _ => true).map (·.2)) := by
    cases index <;> rfl
  rw [hview]
  exact h.lists_viewOf (fun _ _ _ _ => rfl) forward

end IndexedTable

/-! ## What queries and scans list -/

namespace Store

variable {s : Store} {src : Source} {p kept : Item → Bool}

/-- A view of the table or of an index serves what it lists. -/
theorem serves_of_view {t : IndexedTable} {index : Option KeySchema}
    {read : Option Nat → Option Item → Except StoreError Page} {filter : Option Condition}
    {values : NameMap Value} {wanted : Position → Bool} {forward : Bool}
    (hread : ∀ limit, Page.Serves (read limit) limit (t.keyIn index)
      (inOrder forward ((t.viewOf index wanted).map (·.2))))
    (hfilter : Keeps filter values kept) :
    Source.Serves ⟨read, filter⟩ values kept
      (inOrder forward ((t.viewOf index wanted).map (·.2))) where
  pages := by
    intro limit
    refine ⟨t.keyIn index, hread limit, ?_⟩
    intro x hx
    obtain ⟨e, he, rfl⟩ := List.mem_map.mp (mem_inOrder.mp hx)
    exact IndexedTable.keyIn_ne_nil (IndexedTable.mem_viewOf.mp he).2.1
  filtered := hfilter.1
  unfiltered := hfilter.2

theorem serves_readIndex {t : IndexedTable} {i : KeySchema} (h : t.Proper (some i))
    (wanted : Position → Bool) (forward : Bool) (limit : Option Nat) :
    Page.Serves (fun start => t.readIndex i (t.indexView i wanted) start forward limit) limit
      (t.keyIn (some i)) (inOrder forward ((t.viewOf (some i) wanted).map (·.2))) := by
  have hview : t.indexView i wanted = t.viewOf (some i) wanted := rfl
  simp only [IndexedTable.readIndex_eq_fetch, hview]
  refine h.serves_viewOf ?_ wanted forward limit
  intro x q hq
  exact mapError_eq_ok_iff.mpr hq

/-- A selection of the table serves what it selects. -/
theorem serves_matching {t : IndexedTable} (h : t.Proper none) {c : KeyCondition} {forward : Bool}
    {filter : Option Condition} {values : NameMap Value} (hfilter : Keeps filter values kept) :
    Source.Serves
      ⟨fun limit start => (t.table.query c forward limit start).mapError .key, filter⟩ values kept
      (inOrder forward (t.table.matching c)) where
  pages := by
    intro limit
    refine ⟨_, (h.sound.serves_query h.numeric limit).mapError StoreError.key, ?_⟩
    intro x hx
    obtain ⟨pk, sk, hxk⟩ := h.sound.extract_of_mem
      (Table.mem_items_of_mem_matching (mem_inOrder.mp hx))
    have hposition : t.positionIn none x = .ok [pk, sk] :=
      KeySchema.position_eq_ok_iff.mpr ⟨pk, sk, hxk, rfl⟩
    exact IndexedTable.keyIn_ne_nil hposition
  filtered := hfilter.1
  unfiltered := hfilter.2

theorem serves_scan {t : IndexedTable} (h : t.Proper none) (limit : Option Nat) :
    Page.Serves (fun start => (t.table.scan limit start).mapError StoreError.key) limit
      (t.keyIn none) (inOrder true ((t.viewOf none fun _ => true).map (·.2))) := by
  simp only [IndexedTable.scan_eq_fetch]
  exact (h.serves_viewOf (fun x q hq => hq) _ true limit).mapError StoreError.key

/-- A query that is accepted serves what its key condition selects. -/
theorem querySource_reads (hs : s.Sound) (hn : s.Numeric) {r : Query}
    (h : s.querySource r = .ok src)
    (hfilter : ∀ f, readFilter r.filter = .ok f → Keeps f r.values kept) :
    ∃ t index c k, s.table r.table = .ok t ∧ t.named r.index = some index ∧
      readCondition r.keyCondition = .ok c ∧
      KeyCondition.ofCondition (index.getD t.table.schema) r.values c = .ok k ∧
      src.Serves r.values kept (t.selected index (some k) (r.forward.getD true)) := by
  obtain ⟨t, ht, h⟩ := bind_eq_ok_iff.mp h
  obtain ⟨filter, hf, h⟩ := bind_eq_ok_iff.mp h
  obtain ⟨c, hc, h⟩ := bind_eq_ok_iff.mp h
  have hkeeps := hfilter filter hf
  cases hindex : r.index with
  | none =>
      rw [hindex] at h
      obtain ⟨k, hk, h⟩ := bind_eq_ok_iff.mp h
      cases h
      have hproper : t.Proper none := hs.proper hn ht (rfl : t.named none = some none)
      exact ⟨t, none, c, k, ht, rfl, hc, mapError_eq_ok_iff.mp hk, serves_matching hproper hkeeps⟩
  | some name =>
      rw [hindex] at h
      obtain ⟨i, hi, h⟩ := bind_eq_ok_iff.mp h
      obtain ⟨k, hk, h⟩ := bind_eq_ok_iff.mp h
      cases h
      have hnamed : t.named (some name) = some (some i) := IndexedTable.named_of_index hi
      have hproper : t.Proper (some i) := hs.proper hn ht hnamed
      exact ⟨t, some i, c, k, ht, hnamed, hc, mapError_eq_ok_iff.mp hk,
        serves_of_view (serves_readIndex hproper _ _) hkeeps⟩

/-- A query that is accepted lists the items of its table or index that satisfy its condition. -/
theorem querySource_serves (hs : s.Sound) (hn : s.Numeric) {r : Query}
    (h : s.querySource r = .ok src)
    (hcondition : ∀ c, readCondition r.keyCondition = .ok c →
      (∀ x, c.eval x r.values = .ok (p x)) ∧ ∀ d ∈ c.conjuncts, d.NumericUnder r.values)
    (hfilter : ∀ f, readFilter r.filter = .ok f → Keeps f r.values kept) :
    ∃ t index items, s.table r.table = .ok t ∧ t.named r.index = some index ∧
      t.Lists index (r.forward.getD true) p items ∧ src.Serves r.values kept items := by
  obtain ⟨t, index, c, k, ht, hindex, hc, hk, hserves⟩ := querySource_reads hs hn h hfilter
  obtain ⟨heval, hnumeric⟩ := hcondition c hc
  have hproper := hs.proper hn ht hindex
  refine ⟨t, index, _, ht, hindex, hproper.lists_selected ?_ _, hserves⟩
  intro x hx pk sk hxk
  obtain ⟨hpk, hsk⟩ := KeySchema.numeric_of_extract (hproper.numeric_key hx) hxk
  obtain ⟨hmatches, hkn⟩ := KeyCondition.eval_of_ofCondition hk hxk hpk hsk hnumeric
  rw [heval x] at hmatches
  exact ⟨(Except.ok.inj hmatches).symm, hkn⟩

/-- A scan that is accepted serves all that its table or index shows. -/
theorem scanSource_reads (hs : s.Sound) (hn : s.Numeric) {r : Scan}
    (h : s.scanSource r = .ok src)
    (hfilter : ∀ f, readFilter r.filter = .ok f → Keeps f r.values kept) :
    ∃ t index, s.table r.table = .ok t ∧ t.named r.index = some index ∧
      src.Serves r.values kept (t.selected index none true) := by
  obtain ⟨t, ht, h⟩ := bind_eq_ok_iff.mp h
  obtain ⟨filter, hf, h⟩ := bind_eq_ok_iff.mp h
  have hkeeps := hfilter filter hf
  cases hindex : r.index with
  | none =>
      rw [hindex] at h
      cases h
      have hproper : t.Proper none := hs.proper hn ht (rfl : t.named none = some none)
      exact ⟨t, none, ht, rfl, serves_of_view (serves_scan hproper) hkeeps⟩
  | some name =>
      rw [hindex] at h
      obtain ⟨i, hi, h⟩ := bind_eq_ok_iff.mp h
      cases h
      have hnamed : t.named (some name) = some (some i) := IndexedTable.named_of_index hi
      have hproper : t.Proper (some i) := hs.proper hn ht hnamed
      exact ⟨t, some i, ht, hnamed, serves_of_view (serves_readIndex hproper _ _) hkeeps⟩

/-- A scan that is accepted lists the items of its table or index. -/
theorem scanSource_serves (hs : s.Sound) (hn : s.Numeric) {r : Scan}
    (h : s.scanSource r = .ok src)
    (hfilter : ∀ f, readFilter r.filter = .ok f → Keeps f r.values kept) :
    ∃ t index items, s.table r.table = .ok t ∧ t.named r.index = some index ∧
      t.Lists index true (fun _ => true) items ∧ src.Serves r.values kept items := by
  obtain ⟨t, index, ht, hindex, hserves⟩ := scanSource_reads hs hn h hfilter
  exact ⟨t, index, _, ht, hindex, (hs.proper hn ht hindex).lists_shown true, hserves⟩

end Store

end ItemStore
