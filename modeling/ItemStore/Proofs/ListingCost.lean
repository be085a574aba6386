import ItemStore.Proofs.ReadPaths

/-!
# How many requests a listing makes

A client that notes each request tells what it costs to go through a listing.  One request is made
for each page (`Listing.requests_of_serves`), and the pages are cut before the filter, so their
number is told by what the key condition selects and by the page limit: a last page that is full is
followed by an empty one.
-/

namespace ItemStore

/-! ## Clients that note requests -/

namespace PageRequest

/-- The request as a client notes it. -/
def noted : PageRequest → Request
  | query r => .query r
  | scan r => .scan r

/-- Note that a page was fetched. -/
def note (request : PageRequest) (start : Option Item) (log : Recorded Store) : Recorded Store :=
  { log with requests := log.requests ++ [(request.startingAfter start).noted] }

variable {failure : Nat → StoreError} {request : PageRequest} {log : Recorded Store}

/-- Where no request is to fail, each is noted and passed on. -/
theorem send_recording (h : log.failing = []) :
    request.send (Store.client.recording failure) log =
      ((request.send Store.client log.state).1,
        { log with requests := log.requests ++ [request.noted] }) := by
  obtain ⟨s, requests, failing⟩ := log
  obtain rfl : failing = [] := h
  cases request <;> rfl

theorem fetch_recording (h : log.failing = []) (start : Option Item) :
    request.fetch (Store.client.recording failure) start log =
      ((request.fetch Store.client start log.state).1, request.note start log) := by
  rw [fetch, fetch, send_recording h]
  generalize (request.startingAfter start).send Store.client log.state = sent
  obtain ⟨answer, s⟩ := sent
  cases answer <;> rfl

theorem requests_foldl_note (starts : List (Option Item)) (log : Recorded Store) :
    (starts.foldl (fun log start => request.note start log) log).requests =
      log.requests ++ starts.map fun start => (request.startingAfter start).noted := by
  induction starts generalizing log with
  | nil => exact (List.append_nil _).symm
  | cons start starts ih =>
      rw [List.foldl_cons, ih, note, List.map_cons, List.append_assoc, List.singleton_append]

end PageRequest

namespace Listing

variable {Draft Out : Type} {s : Store} {request : PageRequest} {limit : Option Nat}
  {src : Source} {kept : Item → Bool} {items : List Item}

/-- The listing comes to its end, and if it reports no failure, one request is made for each page
that the limit cuts the items into. -/
theorem requests_of_serves (r : Repository Draft Out) (failure : Nat → StoreError)
    (hlimit : s.pageLimit request.limit = .ok limit) (hpos : ∀ n ∈ limit, 0 < n)
    (hsource : s.sourceOf request = .ok src) (hserves : src.Serves request.values kept items)
    {fuel : Nat} (hfuel : 2 * (items.length + 2) ≤ fuel) :
    let run := drain r (Store.client.recording failure) fuel (.pages request Cursor.start)
      (Recorded.start s [])
    finishes r (Store.client.recording failure) fuel (.pages request Cursor.start)
      (Recorded.start s []) = true ∧
    ((∀ e, .failure e ∉ run.1) → ∃ starts : List (Option Item),
      run.2.requests = starts.map (fun start => (request.startingAfter start).noted) ∧
      starts.length = Page.count limit items.length) := by
  obtain ⟨pages, hchain, hflat, hcount, hkeys⟩ := hserves.exists_chain hpos
  have hlt : pages.length + (pages.flatMap (·.items)).length < fuel :=
    (Source.steps_lt hflat hcount).trans_le hfuel
  have hfetch : ∀ start (log : Recorded Store), log.state = s ∧ log.failing = [] →
      request.fetch (Store.client.recording failure) start log =
        (src.fetch request.values limit start, request.note start log) := by
    rintro start log ⟨hstate, hfailing⟩
    rw [PageRequest.fetch_recording hfailing, hstate, fetch_eq_source hlimit hsource]
  have hparse : ∀ x (log : Recorded Store), log.state = s ∧ log.failing = [] →
      r.parse x log = (report r x, log) := fun _ _ _ => rfl
  have hnote : ∀ start (log : Recorded Store), log.state = s ∧ log.failing = [] →
      (request.note start log).state = s ∧ (request.note start log).failing = [] :=
    fun _ _ hlog => hlog
  have hreports := Cursor.drain_of_noted_chain hnote hfetch hparse
    (⟨rfl, rfl⟩ : (Recorded.start s []).state = s ∧ (Recorded.start s []).failing = []) hchain
    hkeys hlt
  refine ⟨congrArg Cursor.closed hreports.done, fun hno => ?_⟩
  refine ⟨Cursor.starts none pages, ?_, (Cursor.length_starts none pages).trans hcount⟩
  exact (congrArg Recorded.requests (hreports.ended hno)).trans
    (PageRequest.requests_foldl_note _ _)

end Listing

/-! ## Selections -/

/-- The key condition that the compiled criteria of a listing state for a key; a scan has none. -/
def ListRequest.States (q : ListRequest) (schema : KeySchema) (bound : BoundCondition)
    (k : Option KeyCondition) : Prop :=
  match q with
  | query _ _ => ∃ c k', Store.readCondition bound.text = .ok c ∧
      KeyCondition.ofCondition schema bound.values c = .ok k' ∧ k = some k'
  | scan _ => k = none

namespace Store

variable {Draft Out : Type} {r : Repository Draft Out} {s : Store} {q : ListRequest}
  {bound : BoundCondition} {filter : Option String} {src : Source}

/-- A request that is accepted serves what the key condition of its criteria selects. -/
theorem sourceOf_reads (hs : s.Sound) (hn : s.Numeric)
    (hcompile : Repository.compile q.key q.filter = .ok (bound, filter))
    (hfilter : ∀ cs ∈ q.filter, cs.Named)
    (h : s.sourceOf (r.pageRequest bound filter q) = .ok src) :
    ∃ t index k, s.table r.table = .ok t ∧ t.named q.index = some index ∧
      q.States (t.schemaOf index) bound k ∧
      src.Serves bound.values (Criteria.holdOptional q.filter)
        (t.selected index k q.forward) := by
  have hkeeps : ∀ f, readFilter filter = .ok f →
      Keeps f bound.values (Criteria.holdOptional q.filter) :=
    fun _ hf => keeps_of_compile hcompile hfilter hf
  cases q with
  | query key o =>
      obtain ⟨t, index, c, k, ht, hindex, hc, hk, hserves⟩ := querySource_reads hs hn h hkeeps
      exact ⟨t, index, some k, ht, hindex, ⟨c, k, hc, hk, rfl⟩, hserves⟩
  | scan o =>
      obtain ⟨t, index, ht, hindex, hserves⟩ := scanSource_reads hs hn h hkeeps
      exact ⟨t, index, none, ht, hindex, rfl, hserves⟩

end Store

/-- A key condition whose operands are numbers where they are of the number type selects the items
whose keys satisfy it. -/
theorem IndexedTable.Proper.lists_selects {t : IndexedTable} {index : Option KeySchema}
    (h : t.Proper index) {k : KeyCondition} (hk : k.Numeric) (forward : Bool) :
    t.Lists index forward ((t.schemaOf index).selects k) (t.selected index (some k) forward) :=
  h.lists_selected (fun _ _ _ _ hx => ⟨(KeySchema.selects_of_extract hx).symm, hk⟩) forward

theorem IndexedTable.Proper.length_selected_le {t : IndexedTable} {index : Option KeySchema}
    (h : t.Proper index) (k : Option KeyCondition) (forward : Bool) :
    (t.selected index k forward).length ≤ t.table.items.length := by
  cases k with
  | none => exact (h.lists_shown forward).length_le
  | some k =>
      cases index with
      | some i =>
          exact (h.lists_viewOf (fun _ _ _ => matchesKey_of_positionIn) forward).length_le
      | none =>
          have hnodup : (t.table.matching k).Nodup := by
            refine (h.pairwise_matching k).imp ?_
            rintro x _ hxx rfl
            exact PlacedBefore.asymm x x hxx hxx
          refine (inOrder_perm forward (t.table.matching k)).length_eq.trans_le ?_
          exact (hnodup.subperm fun x hx => Table.mem_items_of_mem_matching hx).length_le

/-- Where something is left over, a quotient and one more is the quotient rounded up. -/
theorem Page.div_add_one_eq {n length : Nat} (hpos : 0 < n) (h : ¬ n ∣ length) :
    length / n + 1 = (length + n - 1) / n := by
  cases length with
  | zero => exact absurd (Nat.dvd_zero n) h
  | succ m =>
      have hround : m + 1 + n - 1 = m + n := by omega
      rw [hround, Nat.add_div_right m hpos, Nat.succ_div_of_not_dvd h]

namespace Listing

variable {Draft Out : Type} {s : Store} {request : PageRequest}

/-- A request that the store refuses is reported, and nothing follows. -/
theorem failure_of_source_error (r : Repository Draft Out) (failure : Nat → StoreError)
    {limit : Option Nat} {e : StoreError} {fuel : Nat}
    (hlimit : s.pageLimit request.limit = .ok limit) (hsource : s.sourceOf request = .error e)
    (hfuel : 0 < fuel) :
    finishes r (Store.client.recording failure) fuel (.pages request Cursor.start)
      (Recorded.start s []) = true ∧
    .failure (.storage e) ∈ (drain r (Store.client.recording failure) fuel
      (.pages request Cursor.start) (Recorded.start s [])).1 := by
  have hstate : (Recorded.start s []).state = s := rfl
  have hrecorded : request.fetch (Store.client.recording failure) none (Recorded.start s []) =
      (.error (.storage e), request.note none (Recorded.start s [])) := by
    rw [PageRequest.fetch_recording rfl, hstate, fetch_of_source_error hlimit hsource]
  rw [drain, finishes, Cursor.start, Cursor.drain_of_fetch_error hfuel hrecorded]
  exact ⟨rfl, List.mem_cons_self⟩

/-- What it costs to go through a listing.  For every store that is reached and has numbers in its
keys where numbers belong, and every repository, query and scan whose filter names words that are no
keywords: the listing comes to its end, and if no failure is reported, then one request is made for
each page that the limit cuts the selected items into, whatever the filter keeps of them.  These are
the items whose keys satisfy the key condition, and all that are shown for a scan.  Their number
divides into full pages, and one more page follows, which is empty if nothing is left over.  Without
any limit there is one request, and criteria that cannot be compiled cost none. -/
theorem drain_requests (s : Store) (r : Repository Draft Out) (q : ListRequest)
    (failure : Nat → StoreError) (hs : s.Reachable) (hn : s.Numeric)
    (hfilter : ∀ cs ∈ q.filter, cs.Named) (hpos : ∀ n ∈ s.limitOf r q, 0 < n) (fuel : Nat)
    (hfuel : s.enoughSteps ≤ fuel) :
    let run := drain r (Store.client.recording failure) fuel (r.list q) (Recorded.start s [])
    finishes r (Store.client.recording failure) fuel (r.list q) (Recorded.start s []) = true ∧
    (∀ e, Repository.compile q.key q.filter = .error e → run.2.requests = []) ∧
    ((∀ e, .failure e ∉ run.1) →
      ∃ bound filter t index k items, Repository.compile q.key q.filter = .ok (bound, filter) ∧
        s.table r.table = .ok t ∧ t.named q.index = some index ∧
        q.States (t.schemaOf index) bound k ∧ items = t.selected index k q.forward ∧
        (k = none → t.Lists index q.forward (fun _ => true) items) ∧
        (∀ c ∈ k, c.Numeric → t.Lists index q.forward ((t.schemaOf index).selects c) items) ∧
        (∃ starts : List (Option Item), run.2.requests =
          starts.map fun start => ((r.pageRequest bound filter q).startingAfter start).noted) ∧
        (s.limitOf r q = none → run.2.requests.length = 1) ∧
        ∀ n ∈ s.limitOf r q, run.2.requests.length = items.length / n + 1 ∧
          (¬ n ∣ items.length → run.2.requests.length = (items.length + n - 1) / n)) := by
  intro run
  cases hcompile : Repository.compile q.key q.filter with
  | error e =>
      have hrun : run = ([.failure (.condition e)], Recorded.start s []) := by
        simp only [run, Repository.list_of_compile_error hcompile, drain]
      rw [hrun]
      refine ⟨by rw [Repository.list_of_compile_error hcompile, finishes], fun _ _ => rfl, ?_⟩
      intro hno
      exact absurd List.mem_cons_self (hno (.condition e))
  | ok compiled =>
      obtain ⟨bound, filter⟩ := compiled
      have hrun : run = drain r (Store.client.recording failure) fuel
          (.pages (r.pageRequest bound filter q) Cursor.start) (Recorded.start s []) := by
        simp only [run, Repository.list_of_compile_ok hcompile]
      have hlimit := Store.pageLimit_pageRequest bound filter hpos
      rw [Store.enoughSteps] at hfuel
      rw [hrun, Repository.list_of_compile_ok hcompile]
      cases hsource : s.sourceOf (r.pageRequest bound filter q) with
      | error e =>
          obtain ⟨hfinishes, hfailure⟩ := failure_of_source_error r failure hlimit hsource
            (by omega : 0 < fuel)
          exact ⟨hfinishes, fun e he => (by cases he), fun hno => absurd hfailure (hno _)⟩
      | ok src =>
          obtain ⟨t, index, k, ht, hindex, hstates, hserves⟩ :=
            Store.sourceOf_reads hs.sound hn hcompile hfilter hsource
          have hproper := hs.sound.proper hn ht hindex
          have hle : (t.selected index k q.forward).length ≤ s.itemTotal :=
            (hproper.length_selected_le k _).trans (Store.length_items_le_itemTotal ht)
          rw [← Repository.values_pageRequest r bound filter q] at hserves
          obtain ⟨hfinishes, hcost⟩ := requests_of_serves r failure hlimit hpos hsource hserves
            (by omega : 2 * ((t.selected index k q.forward).length + 2) ≤ fuel)
          refine ⟨hfinishes, fun e he => (by cases he), fun hno => ?_⟩
          obtain ⟨starts, hrequests, hcount⟩ := hcost hno
          have hlength := (congrArg List.length hrequests).trans
            ((List.length_map _).trans hcount)
          refine ⟨bound, filter, t, index, k, _, rfl, ht, hindex, hstates, rfl, ?_, ?_,
            ⟨starts, hrequests⟩, ?_, ?_⟩
          · rintro rfl
            exact hproper.lists_shown _
          · rintro c ⟨⟩ hc
            exact hproper.lists_selects hc _
          · intro hnone
            rw [hlength, hnone]
            rfl
          · intro n hn
            have hpages : Page.count (s.limitOf r q) (t.selected index k q.forward).length =
                (t.selected index k q.forward).length / n + 1 := by
              rw [Option.mem_def.mp hn]
              rfl
            rw [hlength, hpages]
            exact ⟨rfl, Page.div_add_one_eq (hpos n hn)⟩

/-- The device's readings, two on a page, of which those noted `a` are kept. -/
def twoOnAPage : ListRequest :=
  .query ⟨[("device", .equals (.string "d"))]⟩
    { filter := some ⟨[("note", .equals (.string "a"))]⟩, pageSize := some 2 }

/-- A store with one reading. -/
def singleReading : Store :=
  (Store.mk [("readings", ⟨Table.empty Table.readingSchema, []⟩)] none).puts "readings"
    [Table.reading "1" "a"]

/-- All readings, one on a page. -/
def oneOnAPage : ListRequest := .scan { pageSize := some 1 }

/-- Two readings fill a page of the query, and one a page of the scan; the empty page after it is
asked for as well. -/
theorem drain_requests_readings :
    (∃ t index k items, Store.copiedReadings.table "readings" = .ok t ∧
      t.named none = some index ∧ items = t.selected index k true ∧
      (drain readingRepository (Store.client.recording fun _ => .nonPositiveLimit) 8
        (readingRepository.list twoOnAPage)
        (Recorded.start Store.copiedReadings [])).2.requests.length = items.length / 2 + 1 ∧
      items.length / 2 + 1 = 2) ∧
    ∃ t index items, singleReading.table "readings" = .ok t ∧ t.named none = some index ∧
      t.Lists index true (fun _ => true) items ∧
      (drain readingRepository (Store.client.recording fun _ => .nonPositiveLimit) 6
        (readingRepository.list oneOnAPage)
        (Recorded.start singleReading [])).2.requests.length = items.length / 1 + 1 ∧
      items.length / 1 + 1 = 2 := by
  constructor
  · have hreachable : Store.copiedReadings.Reachable :=
      Store.Reachable.puts (.createTable (r := ⟨"readings",
        [⟨"device", .partition⟩, ⟨"at", .sort⟩], [⟨"device", .string⟩, ⟨"at", .number⟩],
        [⟨"copy", [⟨"device", .partition⟩, ⟨"at", .sort⟩]⟩]⟩) (a := ⟨"readings"⟩) (.empty none)
        (by decide +kernel)) "readings" _
    have hrun : (drain readingRepository (Store.client.recording fun _ => .nonPositiveLimit) 8
        (readingRepository.list twoOnAPage) (Recorded.start Store.copiedReadings [])).1 =
          [.item (Table.reading "10" "a")] := by decide +kernel
    have htwo : (drain readingRepository (Store.client.recording fun _ => .nonPositiveLimit) 8
        (readingRepository.list twoOnAPage)
        (Recorded.start Store.copiedReadings [])).2.requests.length = 2 := by decide +kernel
    obtain ⟨-, -, hcost⟩ := drain_requests Store.copiedReadings readingRepository twoOnAPage
      (fun _ => .nonPositiveLimit) hreachable (by decide +kernel) (by decide +kernel)
      (by decide +kernel) 8 (by decide +kernel)
    obtain ⟨bound, filter, t, index, k, items, -, ht, hindex, -, hitems, -, -, -, -, hlength⟩ :=
      hcost (by simp [hrun])
    obtain ⟨hcount, -⟩ := hlength 2 (by decide +kernel)
    exact ⟨t, index, k, items, ht, hindex, hitems, hcount, hcount.symm.trans htwo⟩
  · have hreachable : singleReading.Reachable :=
      Store.Reachable.puts (.createTable (r := ⟨"readings",
        [⟨"device", .partition⟩, ⟨"at", .sort⟩], [⟨"device", .string⟩, ⟨"at", .number⟩], []⟩)
        (a := ⟨"readings"⟩) (.empty none) (by decide +kernel)) "readings" _
    have hrun : (drain readingRepository (Store.client.recording fun _ => .nonPositiveLimit) 6
        (readingRepository.list oneOnAPage) (Recorded.start singleReading [])).1 =
          [.item (Table.reading "1" "a")] := by decide +kernel
    have htwo : (drain readingRepository (Store.client.recording fun _ => .nonPositiveLimit) 6
        (readingRepository.list oneOnAPage)
        (Recorded.start singleReading [])).2.requests.length = 2 := by decide +kernel
    obtain ⟨-, -, hcost⟩ := drain_requests singleReading readingRepository oneOnAPage
      (fun _ => .nonPositiveLimit) hreachable (by decide +kernel) (by decide +kernel)
      (by decide +kernel) 6 (by decide +kernel)
    obtain ⟨bound, filter, t, index, k, items, -, ht, hindex, hstates, -, hlists, -, -, -,
      hlength⟩ := hcost (by simp [hrun])
    obtain ⟨hcount, -⟩ := hlength 1 (by decide +kernel)
    exact ⟨t, index, items, ht, hindex, hlists hstates, hcount, hcount.symm.trans htwo⟩

end Listing

end ItemStore
