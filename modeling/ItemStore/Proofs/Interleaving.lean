import ItemStore.Proofs.TableReads

/-!
# Reading page by page while others write

Between the pages of one query or scan of a table, any items may be put into the table.  The read
goes on after the last item that it returned, so its items come in the order of their keys, and no
key comes twice.  Keys that are in the table when the first page is read stay there, and each of
them is either returned already or still lies beyond the last item returned
(`PagedRead.Invariant.covered`).  When there is no next page, all of them have been returned.
-/

namespace ItemStore

/-! ## Lists and pages -/

/-- What a limit leaves of a list is to come after the page, which then goes on after its last
item. -/
theorem Page.cut_cases {limit : Option Nat} (keyOf : Item → Item) (items : List Item)
    (hpos : ∀ n ∈ limit, 0 < n) :
    ∃ toCome, items = (cut limit keyOf items).items ++ toCome ∧
      ((cut limit keyOf items).lastKey = none ∧ toCome = [] ∨
        ∃ x, (cut limit keyOf items).items.getLast? = some x ∧
          (cut limit keyOf items).lastKey = some (keyOf x)) := by
  by_cases hshort : ∀ n ∈ limit, items.length < n
  · rw [cut_of_short hshort]
    exact ⟨[], (List.append_nil items).symm, Or.inl ⟨rfl, rfl⟩⟩
  · simp only [not_forall] at hshort
    obtain ⟨n, hlimit, hle⟩ := hshort
    obtain rfl : limit = some n := hlimit
    obtain ⟨ys, x, zs, hsplit, -, hcut⟩ := cut_of_long keyOf (hpos n rfl) (Nat.le_of_not_lt hle)
    rw [hcut]
    exact ⟨zs, by rw [hsplit]; simp, Or.inr ⟨x, List.getLast?_concat, rfl⟩⟩

/-- In a sorted list, all other elements come before the last one. -/
theorem eq_or_of_getLast? {α : Type} {r : α → α → Prop} {xs : List α} {x last : α}
    (h : xs.Pairwise r) (hlast : xs.getLast? = some last) (hx : x ∈ xs) : x = last ∨ r x last := by
  obtain ⟨init, rfl⟩ := List.getLast?_eq_some_iff.mp hlast
  rcases List.mem_append.mp hx with hx | hx
  · exact Or.inr ((List.pairwise_append.mp h).2.2 x hx last (List.mem_singleton.mpr rfl))
  · exact Or.inl (List.mem_singleton.mp hx)

/-- Where all elements differ in a property, it picks one of them. -/
theorem filter_eq_singleton {α β : Type} [BEq β] [LawfulBEq β] {f : α → β} {xs : List α} {x : α}
    (h : xs.Pairwise fun a b => f a ≠ f b) (hx : x ∈ xs) :
    xs.filter (fun a => f a == f x) = [x] := by
  obtain ⟨as, bs, rfl⟩ := List.append_of_mem hx
  obtain ⟨-, hxbs, hcross⟩ := List.pairwise_append.mp h
  have has : as.filter (fun a => f a == f x) = [] := by
    refine List.filter_eq_nil_iff.mpr ?_
    intro a ha heq
    exact hcross a ha x List.mem_cons_self (beq_iff_eq.mp heq)
  have hbs : bs.filter (fun a => f a == f x) = [] := by
    refine List.filter_eq_nil_iff.mpr ?_
    intro b hb heq
    exact (List.pairwise_cons.mp hxbs).1 b hb (beq_iff_eq.mp heq).symm
  rw [List.filter_append, has, List.nil_append, List.filter_cons_of_pos (by simp), hbs]

theorem Along.trans {α : Type} {forward : Bool} {r : α → α → Prop}
    (hr : ∀ {a b c}, r a b → r b c → r a c) {a b c : α} (hab : Along forward r a b)
    (hbc : Along forward r b c) : Along forward r a c := by
  cases forward with
  | true => exact hr hab hbc
  | false => exact hr hbc hab

/-! ## Stores and requests -/

namespace Store

variable {s : Store} {name : String} {t : IndexedTable}

/-- The store has a table with the key, which can be read in the order of its keys. -/
structure Has (s : Store) (name : String) (schema : KeySchema) (t : IndexedTable) : Prop where
  table : s.table name = .ok t
  proper : t.Proper none
  schema : t.table.schema = schema

theorem table_attempt (ht : s.table name = .ok t) (item : Item) :
    (s.attempt ⟨name, item⟩).table name = .ok (t.attempt item) := by
  rw [attempt, putItem, IndexedTable.attempt, Table.attempt]
  simp only [ht, bind, Except.bind]
  cases hput : t.table.put item with
  | error e => exact ht
  | ok result => exact table_eq_ok_iff.mpr (NameMap.get?_set_self s.tables name _)

theorem Has.attempt {schema : KeySchema} (h : s.Has name schema t) {item : Item}
    (hitem : schema.numeric item = true) :
    (s.attempt ⟨name, item⟩).Has name schema (t.attempt item) where
  table := table_attempt h.table item
  proper := h.proper.attempt (h.schema ▸ hitem)
  schema := (Table.schema_attempt t.table item).trans h.schema

end Store

namespace PageRequest

/-- The request with another limit. -/
def limitedTo (limit : Option Int) : PageRequest → PageRequest
  | query r => query { r with limit := limit }
  | scan r => scan { r with limit := limit }

variable {schema : KeySchema} {request : PageRequest} {k : Option KeyCondition}

theorem ReadsTable.limitedTo (h : ReadsTable schema request k) (limit : Option Int) :
    ReadsTable schema (request.limitedTo limit) k := by
  cases h with
  | scan hindex => exact ReadsTable.scan hindex
  | query hindex hc hk => exact ReadsTable.query hindex hc hk

/-- A fetch after the last item that was returned is answered with what comes after the item. -/
theorem ReadsTable.exists_answer (h : ReadsTable schema request k) (hfilter : request.filter = none)
    {s : Store} {t : IndexedTable} (ht : s.Has request.table schema t) {limit : Option Int}
    {n : Option Nat} (hlimit : s.pageLimit limit = .ok n) {last : Option Item}
    (hlast : ∀ x ∈ last, schema.Reached k x) :
    ∃ (rest : List Item) (answer : PageRead),
      rest.Pairwise (Along request.forward schema.Precedes) ∧
      (∀ y, y ∈ rest ↔ y ∈ t.shown k ∧ ∀ x ∈ last, Along request.forward schema.Precedes x y) ∧
      (((request.limitedTo limit).startingAfter (last.map schema.keyOf)).send Store.client s).1 =
        .ok answer ∧
      (⟨answer.items, answer.lastKey⟩ : Page) = Page.cut n schema.keyOf rest := by
  obtain ⟨htable, hproper, rfl⟩ := ht
  have hsame : (request.limitedTo limit).table = request.table ∧
      (request.limitedTo limit).limit = limit ∧
      (request.limitedTo limit).forward = request.forward ∧
      (request.limitedTo limit).filter = request.filter := by
    cases request <;> exact ⟨rfl, rfl, rfl, rfl⟩
  obtain ⟨htablename, hlimitvalue, hforward, hfiltername⟩ := hsame
  obtain ⟨rest, hsorted, hmem, hpage⟩ := (h.limitedTo limit).exists_rest
    (by rw [htablename, htable]) hproper (by rw [hlimitvalue, hlimit]) hlast
  rw [hforward] at hsorted hmem
  have hnone : Store.readFilter (request.limitedTo limit).filter = .ok none := by
    rw [hfiltername, hfilter]
    rfl
  have hanswer : (((request.limitedTo limit).startingAfter
      (last.map t.table.schema.keyOf)).send Store.client s).1 =
      .ok ⟨(Page.cut n t.table.schema.keyOf rest).items,
        Store.countOf (Page.cut n t.table.schema.keyOf rest).items.length,
        Store.countOf (Page.cut n t.table.schema.keyOf rest).items.length,
        (Page.cut n t.table.schema.keyOf rest).lastKey⟩ := by
    rw [send_eq_page s _ hnone, hpage]
    rfl
  exact ⟨rest, _, hsorted, hmem, hanswer, rfl⟩

end PageRequest

/-! ## Runs -/

/-- A read in progress: the store as it is, where the next page starts, if there is to be one, and
the pages so far, each with the store that it was read from. -/
structure PagedRead where
  store : Store
  next : Option (Option Item)
  pages : List (Store × PageRead)

namespace PagedRead

/-- The items that have been returned. -/
def returned (p : PagedRead) : List Item := p.pages.flatMap (·.2.items)

/-- Someone puts an item. -/
def put (p : PagedRead) (r : PutItem) : PagedRead := { p with store := p.store.attempt r }

/-- The reader gets a page. -/
def receive (p : PagedRead) (answer : PageRead) : PagedRead where
  store := p.store
  next := answer.lastKey.map some
  pages := p.pages ++ [(p.store, answer)]

/-- A read before its first page. -/
def start (s : Store) : PagedRead := ⟨s, some none, []⟩

/-- The runs of a request in a store: puts into the table of items whose numbers are numbers in the
key of the table, and pages of any positive limit, each after the key that the page before ended
with. -/
inductive Run (request : PageRequest) (schema : KeySchema) (s : Store) : PagedRead → Prop
  | start : Run request schema s (start s)
  | put {p : PagedRead} {item : Item} : Run request schema s p → schema.numeric item = true →
      Run request schema s (p.put ⟨request.table, item⟩)
  | fetch {p : PagedRead} {after : Option Item} {limit : Option Int} {n : Option Nat}
      {answer : PageRead} : Run request schema s p → p.next = some after →
      p.store.pageLimit limit = .ok n → (∀ l ∈ n, 0 < l) →
      (((request.limitedTo limit).startingAfter after).send Store.client p.store).1 = .ok answer →
      Run request schema s (p.receive answer)

/-- What holds during a run. -/
structure Invariant (request : PageRequest) (schema : KeySchema) (k : Option KeyCondition)
    (p : PagedRead) : Prop where
  current : ∃ t, p.store.Has request.table schema t
  /-- What a page returned was shown by the table that it was read from. -/
  stored : ∀ page ∈ p.pages, ∃ t, page.1.Has request.table schema t ∧
    ∀ x ∈ page.2.items, x ∈ t.shown k
  sorted : p.returned.Pairwise (Along request.forward schema.Precedes)
  /-- The next page starts after the last item returned. -/
  resumes : ∀ after, p.next = some after → after = p.returned.getLast?.map schema.keyOf ∧
    ∀ x ∈ p.returned.getLast?, schema.Reached k x
  /-- What the first page could have shown has been returned, or is still to come. -/
  covered : ∀ first ∈ p.pages.head?, ∀ t₁, first.1.Has request.table schema t₁ →
    ∀ x ∈ t₁.shown k, (∃ y ∈ p.returned, schema.key? y = schema.key? x) ∨
      p.next ≠ none ∧ ∀ t, p.store.Has request.table schema t → ∃ y ∈ t.shown k,
        schema.key? y = schema.key? x ∧
        ∀ last ∈ p.returned.getLast?, Along request.forward schema.Precedes last y

variable {request : PageRequest} {schema : KeySchema} {k : Option KeyCondition} {s : Store}
  {p : PagedRead}

theorem Invariant.start {t : IndexedTable} (ht : s.Has request.table schema t) :
    Invariant request schema k (start s) where
  current := ⟨t, ht⟩
  stored := nofun
  sorted := List.Pairwise.nil
  resumes := by
    rintro after ⟨⟩
    exact ⟨rfl, nofun⟩
  covered := nofun

/-- A put keeps what holds. -/
theorem Invariant.put (h : Invariant request schema k p) {item : Item}
    (hitem : schema.numeric item = true) :
    Invariant request schema k (p.put ⟨request.table, item⟩) where
  current := by
    obtain ⟨t, ht⟩ := h.current
    exact ⟨_, ht.attempt hitem⟩
  stored := h.stored
  sorted := h.sorted
  resumes := h.resumes
  covered := by
    intro first hfirst t₁ ht₁ x hx
    refine (h.covered first hfirst t₁ ht₁ x hx).imp_right ?_
    rintro ⟨hnext, htocome⟩
    refine ⟨hnext, ?_⟩
    intro t' ht'
    obtain ⟨t, ht⟩ := h.current
    obtain rfl : t.attempt item = t' :=
      Except.ok.inj ((Store.table_attempt ht.table item).symm.trans ht'.table)
    obtain ⟨y, hy, hkey, hafter⟩ := htocome t ht
    obtain ⟨-, hproper, rfl⟩ := ht
    obtain ⟨z, hz, hzkey⟩ := hproper.exists_mem_shown_attempt hitem hy
    refine ⟨z, hz, hzkey.trans hkey, ?_⟩
    exact fun last hlast => (KeySchema.along_precedes_congr hzkey).mpr (hafter last hlast)

/-- What is to come after the items returned, and the page that is cut off it. -/
structure Fetched (request : PageRequest) (schema : KeySchema) (k : Option KeyCondition)
    (p : PagedRead) (t : IndexedTable) (answer : PageRead) (toCome : List Item) : Prop where
  sorted : (answer.items ++ toCome).Pairwise (Along request.forward schema.Precedes)
  mem_iff : ∀ y, y ∈ answer.items ++ toCome ↔ y ∈ t.shown k ∧
    ∀ x ∈ p.returned.getLast?, Along request.forward schema.Precedes x y
  key : answer.lastKey = none ∧ toCome = [] ∨
    ∃ x, answer.items.getLast? = some x ∧ answer.lastKey = some (schema.keyOf x)

/-- What a fetch can do. -/
theorem Invariant.exists_fetched (h : Invariant request schema k p)
    (hreads : request.ReadsTable schema k) (hfilter : request.filter = none) {t : IndexedTable}
    (ht : p.store.Has request.table schema t) {after : Option Item} (hnext : p.next = some after)
    {limit : Option Int} {n : Option Nat} (hlimit : p.store.pageLimit limit = .ok n)
    (hpos : ∀ l ∈ n, 0 < l) :
    ∃ answer toCome, (((request.limitedTo limit).startingAfter after).send Store.client
        p.store).1 = .ok answer ∧ Fetched request schema k p t answer toCome := by
  obtain ⟨rfl, hreached⟩ := h.resumes after hnext
  obtain ⟨rest, answer, hsorted, hmem, hsend, hpage⟩ :=
    hreads.exists_answer hfilter ht hlimit hreached
  obtain ⟨toCome, hsplit, hkey⟩ := Page.cut_cases schema.keyOf rest hpos
  rw [← hpage] at hsplit hkey
  refine ⟨answer, toCome, hsend, ?_, ?_, hkey⟩
  · rw [← hsplit]
    exact hsorted
  · intro y
    rw [← hsplit]
    exact hmem y

theorem returned_receive (p : PagedRead) (answer : PageRead) :
    (p.receive answer).returned = p.returned ++ answer.items := by
  simp [returned, receive]

section Fetched

variable {t : IndexedTable} {answer : PageRead} {toCome : List Item} {x y : Item}

/-- The items of the page come after all items returned before. -/
theorem Fetched.sorted_returned (hf : Fetched request schema k p t answer toCome)
    (h : Invariant request schema k p) :
    (p.receive answer).returned.Pairwise (Along request.forward schema.Precedes) := by
  rw [returned_receive]
  refine List.pairwise_append.mpr ⟨h.sorted, (List.pairwise_append.mp hf.sorted).1, ?_⟩
  intro x hx y hy
  obtain ⟨last, hlast⟩ : ∃ last, p.returned.getLast? = some last :=
    Option.isSome_iff_exists.mp (by simpa using List.ne_nil_of_mem hx)
  have hlasty := ((hf.mem_iff y).mp (List.mem_append_left _ hy)).2 last hlast
  rcases eq_or_of_getLast? h.sorted hlast hx with rfl | hxlast
  · exact hlasty
  · exact Along.trans (r := schema.Precedes) KeySchema.Precedes.trans hxlast hlasty

/-- What was to come is returned, or still to come. -/
theorem Fetched.covers (hf : Fetched request schema k p t answer toCome)
    (ht : p.store.Has request.table schema t) (hy : y ∈ answer.items ++ toCome)
    (hkey : schema.key? y = schema.key? x) :
    (∃ y ∈ (p.receive answer).returned, schema.key? y = schema.key? x) ∨
      (p.receive answer).next ≠ none ∧
        ∀ t', (p.receive answer).store.Has request.table schema t' → ∃ y ∈ t'.shown k,
          schema.key? y = schema.key? x ∧ ∀ last ∈ (p.receive answer).returned.getLast?,
            Along request.forward schema.Precedes last y := by
  have hshown := ((hf.mem_iff y).mp hy).1
  rw [returned_receive]
  rcases List.mem_append.mp hy with hitems | htocome
  · exact Or.inl ⟨y, List.mem_append_right _ hitems, hkey⟩
  · rcases hf.key with ⟨-, hnil⟩ | ⟨last, hlast, hlastkey⟩
    · rw [hnil] at htocome
      cases htocome
    · refine Or.inr ⟨by simp [receive, hlastkey], ?_⟩
      intro t' ht'
      obtain rfl : t = t' := Except.ok.inj (ht.table.symm.trans ht'.table)
      refine ⟨y, hshown, hkey, ?_⟩
      rw [List.getLast?_append, hlast]
      rintro _ ⟨⟩
      exact (List.pairwise_append.mp hf.sorted).2.2 last (List.mem_of_getLast? hlast) y htocome

/-- A fetch keeps what holds. -/
theorem Fetched.invariant (hf : Fetched request schema k p t answer toCome)
    (ht : p.store.Has request.table schema t) (h : Invariant request schema k p) :
    Invariant request schema k (p.receive answer) where
  current := ⟨t, ht⟩
  stored := by
    intro page hpage
    rcases List.mem_append.mp hpage with hpage | hpage
    · exact h.stored page hpage
    · obtain rfl := List.mem_singleton.mp hpage
      exact ⟨t, ht, fun x hx => ((hf.mem_iff x).mp (List.mem_append_left _ hx)).1⟩
  sorted := hf.sorted_returned h
  resumes := by
    intro after hafter
    obtain ⟨key, hlastkey, rfl⟩ := Option.map_eq_some_iff.mp hafter
    rcases hf.key with ⟨hnone, -⟩ | ⟨last, hlast, hkey⟩
    · rw [hnone] at hlastkey
      cases hlastkey
    · rw [hkey] at hlastkey
      cases hlastkey
      rw [returned_receive, List.getLast?_append, hlast]
      refine ⟨rfl, ?_⟩
      rintro _ ⟨⟩
      have hshown := (hf.mem_iff last).mp (List.mem_append_left _ (List.mem_of_getLast? hlast))
      exact ht.schema ▸ ht.proper.reached_of_mem_shown hshown.1
  covered := by
    intro first hfirst t₁ ht₁ x hx
    cases hpages : p.pages with
    | nil =>
        -- this is the first page
        rw [receive, hpages] at hfirst
        obtain rfl : (p.store, answer) = first := Option.some.inj hfirst
        obtain rfl : t = t₁ := Except.ok.inj (ht.table.symm.trans ht₁.table)
        have hnone : p.returned = [] := by rw [returned, hpages, List.flatMap_nil]
        exact hf.covers ht ((hf.mem_iff x).mpr ⟨hx, by rw [hnone]; nofun⟩) rfl
    | cons page pages =>
        have hfirst' : first ∈ p.pages.head? := by
          rw [receive, hpages] at hfirst
          rw [hpages]
          exact hfirst
        rcases h.covered first hfirst' t₁ ht₁ x hx with ⟨y, hy, hkey⟩ | ⟨-, htocome⟩
        · refine Or.inl ⟨y, ?_, hkey⟩
          rw [returned_receive]
          exact List.mem_append_left _ hy
        · obtain ⟨y, hy, hkey, hafter⟩ := htocome t ht
          exact hf.covers ht ((hf.mem_iff y).mpr ⟨hy, hafter⟩) hkey

end Fetched

/-- It holds in every run. -/
theorem Run.invariant (hrun : Run request schema s p) (hreads : request.ReadsTable schema k)
    (hfilter : request.filter = none) {t : IndexedTable} (ht : s.Has request.table schema t) :
    Invariant request schema k p := by
  induction hrun with
  | start => exact Invariant.start ht
  | put _ hitem ih => exact ih.put hitem
  | fetch _ hnext hlimit hpos hsend ih =>
      obtain ⟨t', ht'⟩ := ih.current
      obtain ⟨answer, toCome, hanswer, hf⟩ :=
        ih.exists_fetched hreads hfilter ht' hnext hlimit hpos
      cases hsend.symm.trans hanswer
      exact hf.invariant ht' ih

/-! ## What a run returns -/

theorem Invariant.pairwise_key?_ne (h : Invariant request schema k p) :
    p.returned.Pairwise fun x y => schema.key? x ≠ schema.key? y := by
  refine h.sorted.imp ?_
  intro x y hxy
  cases hforward : request.forward with
  | true =>
      rw [hforward] at hxy
      exact KeySchema.Precedes.key?_ne hxy
  | false =>
      rw [hforward] at hxy
      exact (KeySchema.Precedes.key?_ne hxy).symm

/-- What was returned was stored under its key when it was returned. -/
theorem Invariant.get_of_returned (h : Invariant request schema k p) {page : Store × PageRead}
    (hpage : page ∈ p.pages) {x y : Item} (hy : y ∈ page.2.items)
    (hx : schema.Reached k x) (hkey : schema.key? y = schema.key? x) :
    ∃ t, page.1.table request.table = .ok t ∧ t.table.get (schema.keyOf x) = .ok (some y) := by
  obtain ⟨t, ⟨ht, hproper, rfl⟩, hshown⟩ := h.stored page hpage
  have hitem := IndexedTable.mem_items_of_mem_shown (hshown y hy)
  exact ⟨t, ht, hproper.get_keyOf hx hitem hkey⟩

/-- Reading a table page by page while others write.  Any number of puts into the table, of items
whose numbers are numbers in its key, may fall before, between and after the pages of a query or a
scan of the table, which may have different limits.

Each page that the reader asks for is answered.  The items returned are in the order of their keys,
in the direction of the read, over the whole run, so that no key is returned twice; each was stored
under its key when it was returned.  And if there is no next page, every key that the first page
could have shown is returned once, with the item that was stored under it when it was returned.  A
scan shows all items, and a query that compares with numbers those whose keys satisfy its key
condition. -/
theorem run_returns (s : Store) (hs : s.Reachable) (request : PageRequest) (t : IndexedTable)
    (ht : s.table request.table = .ok t) (hn : t.table.Numeric) (k : Option KeyCondition)
    (hreads : request.ReadsTable t.table.schema k) (hfilter : request.filter = none)
    (p : PagedRead) (hrun : Run request t.table.schema s p) :
    (∀ after, p.next = some after → ∀ limit n, p.store.pageLimit limit = .ok n →
      (∀ l ∈ n, 0 < l) → ∃ answer,
        (((request.limitedTo limit).startingAfter after).send Store.client p.store).1 =
          .ok answer) ∧
    p.returned.Pairwise (Along request.forward t.table.schema.Precedes) ∧
    (p.returned.map t.table.schema.key?).Nodup ∧
    (∀ page ∈ p.pages, ∃ t', page.1.table request.table = .ok t' ∧
      (∀ x ∈ page.2.items, t'.table.get (t.table.schema.keyOf x) = .ok (some x)) ∧
      ∀ x, (k = none → (x ∈ t'.shown k ↔ x ∈ t'.table.items)) ∧
        ∀ c, k = some c → c.Numeric →
          (x ∈ t'.shown k ↔ x ∈ t'.table.items ∧ t.table.schema.selects c x = true)) ∧
    (p.next = none → ∀ first ∈ p.pages.head?, ∀ t₁, first.1.table request.table = .ok t₁ →
      ∀ x ∈ t₁.shown k, ∃ page ∈ p.pages, ∃ t' y, page.1.table request.table = .ok t' ∧
        y ∈ page.2.items ∧ t'.table.get (t.table.schema.keyOf x) = .ok (some y) ∧
        p.returned.filter (fun z => t.table.schema.key? z == t.table.schema.key? x) = [y]) := by
  have hstart : s.Has request.table t.table.schema t :=
    ⟨ht, ⟨hs.sound _ (Store.mem_of_table ht), hn, nofun⟩, rfl⟩
  have h : Invariant request t.table.schema k p := hrun.invariant hreads hfilter hstart
  refine ⟨?_, h.sorted, List.pairwise_map.mpr h.pairwise_key?_ne, ?_, ?_⟩
  · intro after hnext limit n hlimit hpos
    obtain ⟨t', ht'⟩ := h.current
    obtain ⟨answer, -, hanswer, -⟩ := h.exists_fetched hreads hfilter ht' hnext hlimit hpos
    exact ⟨answer, hanswer⟩
  · intro page hpage
    obtain ⟨t', ⟨ht', hproper, hschema⟩, hshown⟩ := h.stored page hpage
    refine ⟨t', ht', ?_, ?_⟩
    · intro x hx
      have hreached := hproper.reached_of_mem_shown (hshown x hx)
      rw [← hschema]
      exact hproper.get_keyOf hreached (IndexedTable.mem_items_of_mem_shown (hshown x hx)) rfl
    · intro x
      refine ⟨?_, ?_⟩
      · rintro rfl
        exact hproper.mem_shown_none
      · rintro c rfl hc
        rw [← hschema]
        exact hproper.mem_shown_some hc
  · intro hnext first hfirst t₁ ht₁ x hx
    obtain ⟨t', ht', -⟩ := h.stored first (List.mem_of_mem_head? hfirst)
    obtain rfl : t' = t₁ := Except.ok.inj (ht'.table.symm.trans ht₁)
    have hreached : t.table.schema.Reached k x := by
      rw [← ht'.schema]
      exact ht'.proper.reached_of_mem_shown hx
    rcases h.covered first hfirst t' ht' x hx with ⟨y, hy, hkey⟩ | ⟨hsome, -⟩
    · obtain ⟨page, hpage, hypage⟩ := List.mem_flatMap.mp hy
      obtain ⟨t₂, ht₂, hget⟩ := h.get_of_returned hpage hypage hreached hkey
      refine ⟨page, hpage, t₂, y, ht₂, hypage, hget, ?_⟩
      rw [← hkey]
      exact filter_eq_singleton h.pairwise_key?_ne hy
    · exact absurd hnext hsome

/-- Two readings of one device. -/
def twoReadings : Store :=
  (Store.mk [("readings", ⟨Table.empty Table.readingSchema, []⟩)] none).puts "readings"
    [Table.reading "1" "a", Table.reading "2" "b"]

/-- The readings of the device, the latest first. -/
def latestReadings : PageRequest :=
  .query ⟨"readings", none, "device = :d", none, [(":d", .string "d")], some false, none, [], none⟩

/-- After a page of one reading, that reading is put again, its time in another spelling.  The
second page has no limit. -/
def overwrittenRead : PagedRead :=
  (((start twoReadings).receive ⟨[Table.reading "2" "b"], 1, 1,
    some (Table.readingSchema.keyOf (Table.reading "2" "b"))⟩).put
      ⟨"readings", Table.reading "2.0" "c"⟩).receive ⟨[Table.reading "1" "a"], 1, 1, none⟩

theorem run_returns_overwritten :
    (overwrittenRead.returned.map Table.readingSchema.key?).Nodup ∧
    ∃ page ∈ overwrittenRead.pages, ∃ y ∈ page.2.items, overwrittenRead.returned.filter
      (fun z => Table.readingSchema.key? z == Table.readingSchema.key? (Table.reading "2" "b")) =
        [y] := by
  have hreachable : twoReadings.Reachable :=
    Store.Reachable.puts (.createTable (r := ⟨"readings", [⟨"device", .partition⟩, ⟨"at", .sort⟩],
      [⟨"device", .string⟩, ⟨"at", .number⟩], []⟩) (a := ⟨"readings"⟩) (.empty none)
      (by decide +kernel)) "readings" _
  have hone : Run latestReadings Table.readingSchema twoReadings ((start twoReadings).receive
      ⟨[Table.reading "2" "b"], 1, 1,
        some (Table.readingSchema.keyOf (Table.reading "2" "b"))⟩) :=
    have hlimit : twoReadings.pageLimit (some 1) = .ok (some 1) := by decide +kernel
    .fetch .start rfl hlimit (by decide) (by decide +kernel)
  have hrun : Run latestReadings Table.readingSchema twoReadings overwrittenRead :=
    have hlimit : (twoReadings.attempt ⟨"readings", Table.reading "2.0" "c"⟩).pageLimit none =
        .ok none := by decide +kernel
    .fetch (.put hone (by decide +kernel)) rfl hlimit (by decide) (by decide +kernel)
  have hcondition : Store.readCondition "device = :d" =
      .ok (.compare (.path ["device"]) .eq (.param ":d")) := by decide +kernel
  have hreads : latestReadings.ReadsTable Table.readingSchema (some ⟨.string "d", none⟩) :=
    .query rfl hcondition (by decide +kernel)
  have ht : twoReadings.table "readings" = .ok ⟨Table.ofPuts Table.readingSchema
      [Table.reading "1" "a", Table.reading "2" "b"], []⟩ := by decide +kernel
  obtain ⟨-, -, hnodup, -, hreturned⟩ := run_returns twoReadings hreachable latestReadings _ ht
    (by decide +kernel) _ hreads rfl overwrittenRead hrun
  refine ⟨hnodup, ?_⟩
  obtain ⟨page, hpage, t, y, -, hy, -, hfilter⟩ := hreturned rfl _ rfl _ ht
    (Table.reading "2" "b") (by decide +kernel)
  exact ⟨page, hpage, y, hy, hfilter⟩

end PagedRead

end ItemStore
