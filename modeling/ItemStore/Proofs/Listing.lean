import ItemStore.Proofs.Cursor
import ItemStore.Proofs.Source

/-!
# What a listing reports

A listing over a store reports the items that it was asked for, however it is cut into pages.  The
page size of the call, that of the repository and the page limit of the store enter a request only
as the limit of its pages; what the request reads does not depend on them (`Store.sourceOf_paged`).
What it reads are the items of the table or index that satisfy the key criteria, of which the
filter keeps some (`Store.sourceOf_serves`), and the cursor goes through these page by page
(`Listing.drain_of_serves`).
-/

namespace ItemStore

/-- How listings are cut into pages: the page size that a call asks for, the one that a repository
is set up with, and the limit that a store has for requests that name none. -/
structure Paging where
  call : Option Nat
  settings : Option Nat
  store : Option Nat
  call_pos : ∀ n ∈ call, 0 < n
  settings_pos : ∀ n ∈ settings, 0 < n
  store_pos : ∀ n ∈ store, 0 < n

/-- What a listing is asked for: a query or a scan. -/
inductive ListRequest where
  | query (key : Criteria) (o : QueryOptions)
  | scan (o : ScanOptions)

namespace ListRequest

def key : ListRequest → Option Criteria
  | query key _ => some key
  | scan _ => none

def filter : ListRequest → Option Criteria
  | query _ o => o.filter
  | scan o => o.filter

def index : ListRequest → Option String
  | query _ o => o.index
  | scan o => o.index

/-- Scans are in ascending order. -/
def forward : ListRequest → Bool
  | query _ o => o.forward
  | scan _ => true

def paged (p : Paging) : ListRequest → ListRequest
  | query key o => query key { o with pageSize := p.call }
  | scan o => scan { o with pageSize := p.call }

theorem key_paged (q : ListRequest) (p : Paging) : (q.paged p).key = q.key := by
  cases q <;> rfl

theorem filter_paged (q : ListRequest) (p : Paging) : (q.paged p).filter = q.filter := by
  cases q <;> rfl

/-- The page size that the call asks for. -/
def pageSize : ListRequest → Option Nat
  | query _ o => o.pageSize
  | scan o => o.pageSize

/-- Whether an item satisfies the key criteria and those of the filter. -/
def wants (q : ListRequest) (item : Item) : Bool :=
  Criteria.holdOptional q.key item && Criteria.holdOptional q.filter item

end ListRequest

namespace Repository

variable {Draft Out : Type}

/-- List what is asked for. -/
def list (r : Repository Draft Out) : ListRequest → Listing
  | .query key o => r.query key o
  | .scan o => r.scan o

def paged (p : Paging) (r : Repository Draft Out) : Repository Draft Out :=
  { r with settings := { r.settings with pageSize := p.settings } }

/-- The request for the first page. -/
def pageRequest (r : Repository Draft Out) (bound : BoundCondition) (filter : Option String) :
    ListRequest → PageRequest
  | .query _ o => .query {
      table := r.table
      index := o.index
      keyCondition := bound.text
      filter := filter
      values := bound.values
      forward := some o.forward
      limit := r.limit o.pageSize
      startKey := []
      consistentRead := r.consistentRead o.consistentRead }
  | .scan o => .scan {
      table := r.table
      index := o.index
      filter := filter
      values := bound.values
      limit := r.limit o.pageSize
      startKey := []
      consistentRead := r.consistentRead none }

theorem list_of_compile_ok {r : Repository Draft Out} {q : ListRequest} {bound : BoundCondition}
    {filter : Option String} (h : compile q.key q.filter = .ok (bound, filter)) :
    r.list q = .pages (r.pageRequest bound filter q) Cursor.start := by
  cases q with
  | query key o =>
      have hquery : compile (some key) o.filter = .ok (bound, filter) := h
      rw [list, query, hquery]
      rfl
  | scan o =>
      have hscan : compile none o.filter = .ok (bound, filter) := h
      rw [list, scan, hscan]
      rfl

theorem list_of_compile_error {r : Repository Draft Out} {q : ListRequest} {e : CompileError}
    (h : compile q.key q.filter = .error e) : r.list q = .refused e := by
  cases q with
  | query key o =>
      have hquery : compile (some key) o.filter = .error e := h
      rw [list, query, hquery]
  | scan o =>
      have hscan : compile none o.filter = .error e := h
      rw [list, scan, hscan]

end Repository

/-! ## What a request reads -/

namespace PageRequest

def values : PageRequest → NameMap Value
  | query r => r.values
  | scan r => r.values

def limit : PageRequest → Option Int
  | query r => r.limit
  | scan r => r.limit

end PageRequest

section

variable {Draft Out : Type} (r : Repository Draft Out) (bound : BoundCondition)
  (filter : Option String) (q : ListRequest)

theorem Repository.values_pageRequest : (r.pageRequest bound filter q).values = bound.values := by
  cases q <;> rfl

theorem Repository.startingAfter_pageRequest :
    (r.pageRequest bound filter q).startingAfter none = r.pageRequest bound filter q := by
  cases q <;> rfl

end

namespace Store

variable {Draft Out : Type} {r : Repository Draft Out} {s : Store} {q : ListRequest}
  {bound : BoundCondition} {filter : Option String} {src : Source}

/-- The store with another limit for requests that name none. -/
def paged (p : Paging) (s : Store) : Store := { s with defaultLimit := p.store }

/-- What a request reads. -/
def sourceOf (s : Store) : PageRequest → Except StoreError Source
  | .query r => s.querySource r
  | .scan r => s.scanSource r

theorem sourceOf_paged (p : Paging) :
    (s.paged p).sourceOf ((r.paged p).pageRequest bound filter (q.paged p)) =
      s.sourceOf (r.pageRequest bound filter q) := by
  cases q <;> rfl

/-- The page limit that counts for a listing: the page size of the call, or else that of the
repository, as far as a request can ask for it, or else the limit of the store. -/
def limitOf (s : Store) (r : Repository Draft Out) (q : ListRequest) : Option Nat :=
  match q.pageSize.or r.settings.pageSize with
  | some n => some (min n Repository.largestLimit)
  | none => s.defaultLimit

theorem pageLimit_pageRequest (bound : BoundCondition) (filter : Option String)
    (hpos : ∀ n ∈ s.limitOf r q, 0 < n) :
    s.pageLimit (r.pageRequest bound filter q).limit = .ok (s.limitOf r q) := by
  have hlimit : (r.pageRequest bound filter q).limit = r.limit q.pageSize := by
    cases q <;> rfl
  rw [hlimit, Repository.limit]
  rw [limitOf] at hpos ⊢
  cases hsize : q.pageSize.or r.settings.pageSize with
  | none => rfl
  | some n =>
      rw [hsize] at hpos
      have hmin : 0 < min n Repository.largestLimit := hpos _ rfl
      rw [Option.map_some, pageLimit, if_neg (by omega), Int.toNat_natCast]

/-- Every way of paging makes a limit that no page is refused for. -/
theorem pageLimit_paged (s : Store) (r : Repository Draft Out) (bound : BoundCondition)
    (filter : Option String) (q : ListRequest) (p : Paging) :
    ∃ limit, (s.paged p).pageLimit
        ((r.paged p).pageRequest bound filter (q.paged p)).limit = .ok limit ∧
      ∀ n ∈ limit, 0 < n := by
  have hsizes : (q.paged p).pageSize.or (r.paged p).settings.pageSize = p.call.or p.settings := by
    cases q <;> rfl
  have hpos : ∀ n ∈ (s.paged p).limitOf (r.paged p) (q.paged p), 0 < n := by
    rw [limitOf, hsizes]
    cases hsize : p.call.or p.settings with
    | none => exact p.store_pos
    | some n =>
        have hn : 0 < n := by
          rcases Option.or_eq_some_iff.mp hsize with h | ⟨-, h⟩
          · exact p.call_pos n h
          · exact p.settings_pos n h
        rintro _ ⟨⟩
        exact Nat.lt_min.mpr ⟨hn, by decide⟩
  exact ⟨_, pageLimit_pageRequest bound filter hpos, hpos⟩

theorem keeps_of_compile (hcompile : Repository.compile q.key q.filter = .ok (bound, filter))
    (hfilter : ∀ cs ∈ q.filter, cs.Named) {f : Option Condition}
    (hf : readFilter filter = .ok f) :
    Keeps f bound.values (Criteria.holdOptional q.filter) := by
  obtain ⟨-, ⟨g, hgtext, rfl⟩, -, hfiltervalues⟩ := Repository.compile_eq_ok hcompile
  exact keeps_filter hgtext hfilter hfiltervalues hf

/-- A request that is accepted reads the items that satisfy its key criteria, and its filter keeps
those that satisfy the criteria of the filter. -/
theorem sourceOf_serves (hs : s.Sound) (hn : s.Numeric)
    (hcompile : Repository.compile q.key q.filter = .ok (bound, filter))
    (hkey : ∀ cs ∈ q.key, cs.Named ∧ cs.Numeric) (hfilter : ∀ cs ∈ q.filter, cs.Named)
    (h : s.sourceOf (r.pageRequest bound filter q) = .ok src) :
    ∃ t index items, s.table r.table = .ok t ∧ t.named q.index = some index ∧
      t.Lists index q.forward (Criteria.holdOptional q.key) items ∧
      src.Serves bound.values (Criteria.holdOptional q.filter) items := by
  obtain ⟨htext, -, hkeyvalues, -⟩ := Repository.compile_eq_ok hcompile
  have hkeeps : ∀ f, readFilter filter = .ok f →
      Keeps f bound.values (Criteria.holdOptional q.filter) :=
    fun _ hf => keeps_of_compile hcompile hfilter hf
  cases q with
  | query key o =>
      obtain ⟨hnamed, hnumeric⟩ := hkey key rfl
      have hcondition : ∀ c, readCondition bound.text = .ok c →
          (∀ x, c.eval x bound.values = .ok (Criteria.hold key.entries x)) ∧
            ∀ d ∈ c.conjuncts, d.NumericUnder bound.values := by
        intro c hc
        rw [htext] at hc
        exact readCondition_key hnamed hnumeric (hkeyvalues key rfl) hc
      exact querySource_serves hs hn h hcondition hkeeps
  | scan o => exact scanSource_serves hs hn h hkeeps

theorem send_startingAfter {request : PageRequest} {limit : Option Nat}
    (hlimit : s.pageLimit request.limit = .ok limit) (start : Option Item) :
    (request.startingAfter start).send Store.client s =
      (s.sourceOf request >>= fun src => src.page request.values limit (startOf (start.getD [])),
        s) := by
  cases request with
  | query r =>
      have hquery := query_eq_source (r := { r with startKey := start.getD [] }) hlimit
      exact congrArg (·, s) hquery
  | scan r =>
      have hscan := scan_eq_source (r := { r with startKey := start.getD [] }) hlimit
      exact congrArg (·, s) hscan

end Store

/-! ## Listings -/

theorem IndexedTable.Lists.filter {t : IndexedTable} {index : Option KeySchema} {forward : Bool}
    {p : Item → Bool} {items : List Item} (h : t.Lists index forward p items)
    (kept : Item → Bool) :
    t.Lists index forward (fun x => p x && kept x) (items.filter kept) where
  perm := by
    refine (h.perm.filter kept).trans (List.Perm.of_eq ?_)
    rw [List.filter_filter]
    exact List.filter_congr fun x _ => by
      rw [Bool.and_comm, Bool.and_assoc]
  sorted := h.sorted.filter kept

theorem IndexedTable.Lists.length_le {t : IndexedTable} {index : Option KeySchema}
    {forward : Bool} {p : Item → Bool} {items : List Item} (h : t.Lists index forward p items) :
    items.length ≤ t.table.items.length := by
  rw [h.perm.length_eq]
  exact List.length_filter_le _ _

namespace Listing

variable {Draft Out : Type} {r : Repository Draft Out} {s : Store} {request : PageRequest}
  {limit : Option Nat} {src : Source} {kept : Item → Bool} {items : List Item}

/-- What a listing reports of an item. -/
def report (r : Repository Draft Out) (item : Item) : Except (RepositoryError StoreError) Out :=
  (r.entity.parse item).mapError .schema

/-- The first request of the listing is sent, and the store answers it. -/
def Accepted (listing : Listing) (s : Store) : Prop :=
  ∃ request cursor answer, listing = .pages request cursor ∧
    (request.send Store.client s).1 = .ok answer

/-- A page of a listing is fetched from the source of its request. -/
theorem fetch_eq_source (hlimit : s.pageLimit request.limit = .ok limit)
    (hsource : s.sourceOf request = .ok src) (start : Option Item) :
    request.fetch Store.client start s = (src.fetch request.values limit start, s) := by
  have hsend : (request.startingAfter start).send Store.client s =
      (src.page request.values limit (Store.startOf (start.getD [])), s) := by
    rw [Store.send_startingAfter hlimit, hsource]
    rfl
  rw [PageRequest.fetch, hsend, Source.fetch]
  cases src.page request.values limit (Store.startOf (start.getD [])) <;> rfl

theorem fetch_of_source_error (hlimit : s.pageLimit request.limit = .ok limit) {e : StoreError}
    (hsource : s.sourceOf request = .error e) :
    request.fetch Store.client none s = (.error (.storage e), s) := by
  rw [PageRequest.fetch, Store.send_startingAfter hlimit, hsource]
  rfl

/-- A listing of what a source serves reports the items that the filter keeps. -/
theorem drain_of_serves (hlimit : s.pageLimit request.limit = .ok limit)
    (hpos : ∀ n ∈ limit, 0 < n) (hsource : s.sourceOf request = .ok src)
    (hserves : src.Serves request.values kept items) {fuel : Nat}
    (hfuel : 2 * (items.length + 2) ≤ fuel) :
    drain r Store.client fuel (.pages request Cursor.start) s =
        (Cursor.reports (report r) (items.filter kept), s) ∧
      finishes r Store.client fuel (.pages request Cursor.start) s = true := by
  have hfetch := fetch_eq_source hlimit hsource
  have hparse : ∀ x, r.parse x s = (report r x, s) := fun x => rfl
  obtain ⟨pages, hchain, hflat, hcount, hkeys⟩ := hserves.exists_chain hpos
  have hlt : pages.length + (pages.flatMap (·.items)).length < fuel :=
    (Source.steps_lt hflat hcount).trans_le hfuel
  have hrun := Cursor.drain_of_chain hfetch hparse hchain hkeys hlt
  rw [hflat] at hrun
  rw [drain, finishes, Cursor.start, hrun]
  exact ⟨rfl, rfl⟩

/-- A listing whose request is refused reports nothing else. -/
theorem drain_of_source_error (hlimit : s.pageLimit request.limit = .ok limit) {e : StoreError}
    (hsource : s.sourceOf request = .error e) {fuel : Nat} (hfuel : 0 < fuel) :
    drain r Store.client fuel (.pages request Cursor.start) s =
        ([.failure (.storage e)], s) ∧
      finishes r Store.client fuel (.pages request Cursor.start) s = true := by
  rw [drain, finishes, Cursor.start,
    Cursor.drain_of_fetch_error hfuel (fetch_of_source_error hlimit hsource)]
  exact ⟨rfl, rfl⟩

section Paged

variable {q : ListRequest} {bound : BoundCondition} {filter : Option String} {e : StoreError}

theorem list_paged_of_error {e : CompileError}
    (hcompile : Repository.compile q.key q.filter = .error e) (p : Paging) :
    (r.paged p).list (q.paged p) = .refused e := by
  apply Repository.list_of_compile_error
  rw [q.key_paged, q.filter_paged, hcompile]

theorem list_paged_of_ok (hcompile : Repository.compile q.key q.filter = .ok (bound, filter))
    (p : Paging) : (r.paged p).list (q.paged p) =
      .pages ((r.paged p).pageRequest bound filter (q.paged p)) Cursor.start := by
  apply Repository.list_of_compile_ok
  rw [q.key_paged, q.filter_paged, hcompile]

theorem drain_paged_of_source_error
    (hcompile : Repository.compile q.key q.filter = .ok (bound, filter))
    (hsource : s.sourceOf (r.pageRequest bound filter q) = .error e) (p : Paging) {fuel : Nat}
    (hfuel : 0 < fuel) :
    drain (r.paged p) Store.client fuel ((r.paged p).list (q.paged p)) (s.paged p) =
        ([.failure (.storage e)], s.paged p) ∧
      finishes (r.paged p) Store.client fuel ((r.paged p).list (q.paged p)) (s.paged p) = true := by
  obtain ⟨limit, hlimit, -⟩ := Store.pageLimit_paged s r bound filter q p
  rw [list_paged_of_ok hcompile]
  exact drain_of_source_error hlimit ((Store.sourceOf_paged p).trans hsource) hfuel

/-- A listing is accepted exactly if its source has a first page. -/
theorem accepted_paged_iff (hcompile : Repository.compile q.key q.filter = .ok (bound, filter))
    (p : Paging) :
    Accepted ((r.paged p).list (q.paged p)) (s.paged p) ↔
      ∃ limit answer, (s.paged p).pageLimit
          ((r.paged p).pageRequest bound filter (q.paged p)).limit = .ok limit ∧
        s.sourceOf (r.pageRequest bound filter q) >>= (fun src => src.page bound.values limit none)
          = .ok answer := by
  obtain ⟨limit, hlimit, -⟩ := Store.pageLimit_paged s r bound filter q p
  have hsend := Store.send_startingAfter hlimit none
  rw [Repository.startingAfter_pageRequest, Store.sourceOf_paged,
    Repository.values_pageRequest] at hsend
  rw [Accepted, list_paged_of_ok hcompile]
  constructor
  · rintro ⟨request, cursor, answer, hpages, hanswer⟩
    cases hpages
    rw [hsend] at hanswer
    exact ⟨limit, answer, hlimit, hanswer⟩
  · rintro ⟨limit', answer, hlimit', hanswer⟩
    obtain rfl : limit = limit' := Except.ok.inj (hlimit.symm.trans hlimit')
    refine ⟨_, _, answer, rfl, ?_⟩
    rw [hsend]
    exact hanswer

theorem drain_paged_of_serves
    (hcompile : Repository.compile q.key q.filter = .ok (bound, filter))
    (hsource : s.sourceOf (r.pageRequest bound filter q) = .ok src)
    (hserves : src.Serves bound.values kept items) (p : Paging) {fuel : Nat}
    (hfuel : 2 * (items.length + 2) ≤ fuel) :
    drain (r.paged p) Store.client fuel ((r.paged p).list (q.paged p)) (s.paged p) =
        (Cursor.reports (report r) (items.filter kept), s.paged p) ∧
      finishes (r.paged p) Store.client fuel ((r.paged p).list (q.paged p)) (s.paged p) = true := by
  obtain ⟨limit, hlimit, hpos⟩ := Store.pageLimit_paged s r bound filter q p
  have hpaged : src.Serves ((r.paged p).pageRequest bound filter (q.paged p)).values kept
      items := by
    rw [Repository.values_pageRequest]
    exact hserves
  rw [list_paged_of_ok hcompile]
  exact drain_of_serves hlimit hpos ((Store.sourceOf_paged p).trans hsource) hpaged hfuel

end Paged

/-- What a listing reports.  For every store that is reached and has numbers in its keys where
numbers belong, every repository and every query or scan whose criteria name words that are no
keywords, the key criteria comparing with numbers: however the listing is cut into pages, it
reports the same, comes to its end and leaves the store as it is.

Either it is accepted and reports the items of its table or index that satisfy all criteria, each
once and in the order of the index key and the table key, read forward or backward, up to the first
item that is not valid; or it is not accepted, and reports one failure. -/
theorem drain_lists (s : Store) (r : Repository Draft Out) (q : ListRequest) (hs : s.Reachable)
    (hn : s.Numeric) (hkey : ∀ cs ∈ q.key, cs.Named ∧ cs.Numeric)
    (hfilter : ∀ cs ∈ q.filter, cs.Named) :
    ∃ events,
      (∀ p : Paging, ∀ fuel, s.enoughSteps ≤ fuel →
        drain (r.paged p) Store.client fuel ((r.paged p).list (q.paged p)) (s.paged p) =
            (events, s.paged p) ∧
          finishes (r.paged p) Store.client fuel ((r.paged p).list (q.paged p)) (s.paged p) =
            true) ∧
      ((∀ p : Paging, Accepted ((r.paged p).list (q.paged p)) (s.paged p)) ∧
          (∃ t index items, s.table r.table = .ok t ∧ t.named q.index = some index ∧
            t.Lists index q.forward q.wants items ∧ events = Cursor.reports (report r) items) ∨
        (∀ p : Paging, ¬ Accepted ((r.paged p).list (q.paged p)) (s.paged p)) ∧
          ∃ e, events = [.failure e]) := by
  cases hcompile : Repository.compile q.key q.filter with
  | error e =>
      refine ⟨[.failure (.condition e)], ?_, Or.inr ⟨?_, _, rfl⟩⟩
      · intro p fuel _
        rw [list_paged_of_error hcompile]
        exact ⟨rfl, rfl⟩
      · rintro p ⟨request, cursor, answer, hpages, -⟩
        rw [list_paged_of_error hcompile] at hpages
        cases hpages
  | ok compiled =>
      obtain ⟨bound, filter⟩ := compiled
      cases hsource : s.sourceOf (r.pageRequest bound filter q) with
      | error e =>
          refine ⟨[.failure (.storage e)], ?_, Or.inr ⟨?_, _, rfl⟩⟩
          · intro p fuel hfuel
            rw [Store.enoughSteps] at hfuel
            exact drain_paged_of_source_error hcompile hsource p (by omega)
          · intro p haccepted
            obtain ⟨limit, answer, -, hanswer⟩ := (accepted_paged_iff hcompile p).mp haccepted
            rw [hsource] at hanswer
            cases hanswer
      | ok src =>
          obtain ⟨t, index, items, ht, hindex, hlists, hserves⟩ :=
            Store.sourceOf_serves hs.sound hn hcompile hkey hfilter hsource
          refine ⟨_, ?_, Or.inl ⟨?_, t, index, _, ht, hindex, hlists.filter _, rfl⟩⟩
          · intro p fuel hfuel
            have hle : items.length ≤ s.itemTotal :=
              hlists.length_le.trans (Store.length_items_le_itemTotal ht)
            rw [Store.enoughSteps] at hfuel
            exact drain_paged_of_serves hcompile hsource hserves p (by omega)
          · intro p
            obtain ⟨limit, hlimit, -⟩ := Store.pageLimit_paged s r bound filter q p
            obtain ⟨answer, hanswer⟩ := hserves.exists_first limit
            refine (accepted_paged_iff hcompile p).mpr ⟨limit, answer, hlimit, ?_⟩
            rw [hsource]
            exact hanswer

/-- A store with some readings of one device. -/
def readingStore (history : List Item) : Store :=
  ⟨[("readings", ⟨Table.ofPuts Table.readingSchema history, []⟩)], none⟩

/-- The readings of the store, as they are. -/
def readingRepository : Repository Item Item where
  table := "readings"
  entity := ⟨fun _ item => .ok item, .ok, .ok, id⟩

/-- The device's readings from the time 1 on, of which those noted `a` are shown. -/
def readingRequest : ListRequest :=
  .query ⟨[("device", .equals (.string "d")), ("at", .compare .ge (.number "1"))]⟩
    { filter := some ⟨[("note", .equals (.string "a"))]⟩ }

/-- All readings. -/
def allReadings : ListRequest := .scan {}

def readings : Store :=
  readingStore [Table.reading "10" "a", Table.reading "1.0" "a", Table.reading "2" "b"]

/-- Pages without a limit. -/
def unlimited : Paging := ⟨none, none, none, nofun, nofun, nofun⟩

/-- Pages of one item. -/
def oneByOne : Paging := ⟨some 1, none, none, by decide, nofun, nofun⟩

/-- One by one, the filter of the query leaves the second page empty; the scan reports all three
readings. -/
theorem drain_lists_readings :
    let lists := fun (q : ListRequest) (events : List (Event Item (RepositoryError StoreError))) =>
      let listing := (readingRepository.paged oneByOne).list (q.paged oneByOne)
      drain (readingRepository.paged oneByOne) Store.client 12 listing (readings.paged oneByOne) =
          (events, readings.paged oneByOne) ∧
        finishes (readingRepository.paged oneByOne) Store.client 12 listing
          (readings.paged oneByOne) = true ∧
        Accepted listing (readings.paged oneByOne) ∧
        ∃ t index items, readings.table "readings" = .ok t ∧ t.named none = some index ∧
          t.Lists index true q.wants items ∧
          events = Cursor.reports (report readingRepository) items
    lists readingRequest [.item (Table.reading "1.0" "a"), .item (Table.reading "10" "a")] ∧
    ∃ events, lists allReadings events ∧ events.length = 3 := by
  intro lists
  have hempty : (readingStore []).Reachable :=
    .createTable (r := ⟨"readings", [⟨"device", .partition⟩, ⟨"at", .sort⟩],
      [⟨"device", .string⟩, ⟨"at", .number⟩], []⟩) (a := ⟨"readings"⟩) (.empty none)
      (by decide +kernel)
  have hone : (readingStore [Table.reading "10" "a"]).Reachable :=
    .putItem (r := ⟨"readings", Table.reading "10" "a"⟩) (a := {}) hempty (by decide +kernel)
  have htwo : (readingStore [Table.reading "10" "a", Table.reading "1.0" "a"]).Reachable :=
    .putItem (r := ⟨"readings", Table.reading "1.0" "a"⟩) (a := {}) hone (by decide +kernel)
  have hreadings : readings.Reachable :=
    .putItem (r := ⟨"readings", Table.reading "2" "b"⟩) (a := {}) htwo (by decide +kernel)
  constructor
  · -- the reports are computed for one way to cut them into pages, and then known for the other
    obtain ⟨events, hsame, hcases⟩ := drain_lists readings readingRepository readingRequest
      hreadings (by decide +kernel) (by decide +kernel) (by decide +kernel)
    obtain ⟨hunlimited, -⟩ := hsame unlimited 12 (by decide +kernel)
    obtain ⟨hdrain, hfinishes⟩ := hsame oneByOne 12 (by decide +kernel)
    obtain rfl : events = [.item (Table.reading "1.0" "a"), .item (Table.reading "10" "a")] := by
      refine (congrArg Prod.fst hunlimited).symm.trans ?_
      decide +kernel
    rcases hcases with ⟨haccepted, hlists⟩ | ⟨-, e, he⟩
    · exact ⟨hdrain, hfinishes, haccepted oneByOne, hlists⟩
    · cases he
  · obtain ⟨events, hsame, hcases⟩ := drain_lists readings readingRepository allReadings
      hreadings (by decide +kernel) (by decide +kernel) (by decide +kernel)
    obtain ⟨hdrain, hfinishes⟩ := hsame oneByOne 12 (by decide +kernel)
    have hscan : Accepted ((readingRepository.paged oneByOne).list (allReadings.paged oneByOne))
        (readings.paged oneByOne) := ⟨_, _, _, rfl, rfl⟩
    rcases hcases with ⟨-, t, index, items, ht, hindex, hlists, rfl⟩ | ⟨hrefused, -⟩
    · refine ⟨_, ⟨hdrain, hfinishes, hscan, t, index, items, ht, hindex, hlists, rfl⟩, ?_⟩
      have hreports : Cursor.reports (report readingRepository) (items.map id) =
          items.map .item := Cursor.reports_map fun _ _ => rfl
      rw [List.map_id] at hreports
      cases ht
      cases hindex
      rw [hreports, List.length_map, hlists.perm.length_eq]
      decide +kernel
    · exact absurd hscan (hrefused oneByOne)

end Listing

end ItemStore
