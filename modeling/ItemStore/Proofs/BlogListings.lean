import ItemStore.Proofs.BlogRun
import ItemStore.Proofs.KeyQuery
import ItemStore.Proofs.TextOrder
import Mathlib.Data.Set.List

/-!
# Listings of comments

The comments on a post, and those by an author, are listed by a query for one value of the
partition key and for the prefix that the sort keys of comments share.  No post has a sort key with
the prefix, and in the index by author there are no posts at all, so only items of comments are
listed, and all of these are read back (`Gathers.exists_shown`).  What is in the table is known from
the log of the run, so is what is listed: the comments that were put last, whichever posts were put
between them (`run_shares_table`).
-/

namespace ItemStore.Blog

variable {entries : List Entry} {index : Option KeySchema} {name : String}

/-! ## The queries -/

/-- The key of a table or an index that has the comments with one value of an attribute together. -/
def gathering (column : String) : KeySchema := ⟨⟨column, .string⟩, some ⟨"sk", .string⟩⟩

/-- What the queries for comments ask of a key. -/
def commentsWith (value : String) : KeyCondition :=
  ⟨.string value, some (.beginsWith (.string Comment.sortPrefix))⟩

theorem entries_criteria {column : String} (h : column ≠ "sk") (value : String) :
    (Comment.criteria column value).entries =
      [(column, .equals (.string value)), ("sk", .beginsWith (.string Comment.sortPrefix))] := by
  simp [Comment.criteria, Criteria.ofEntries, Criteria.set, Criteria.setEntry, Criteria.empty, h]

theorem bindings_criteria {column : String} (h : column ≠ "sk") (value : String) :
    (Comment.criteria column value).bindings =
      [(":" ++ column, .string value), (":" ++ "sk", .string Comment.sortPrefix)] := by
  rw [Criteria.bindings, entries_criteria h]
  rfl

theorem states_criteria {column : String} (h : column ≠ "sk") (value : String) :
    Criteria.States (gathering column) (Comment.criteria column value).entries
      (commentsWith value) := by
  rw [entries_criteria h]
  exact .partitionFirst (a := ⟨"sk", .string⟩) rfl rfl (.beginsWith rfl (by decide))

theorem unambiguous_criteria {column : String} (h : column ≠ "sk") (value : String) :
    (Comment.criteria column value).Unambiguous := by
  intro b hb b' hb' hname
  rw [bindings_criteria h] at hb hb'
  simp only [List.mem_cons, List.not_mem_nil, or_false] at hb hb'
  rcases hb with rfl | rfl <;> rcases hb' with rfl | rfl
  · rfl
  · exact absurd (String.append_right_inj _ |>.mp hname) h
  · exact absurd (String.append_right_inj _ |>.mp hname).symm h
  · rfl

theorem numeric_criteria {column : String} (h : column ≠ "sk") (value : String) :
    (Comment.criteria column value).Numeric := by
  rw [Criteria.Numeric, bindings_criteria h]
  exact List.forall_mem_cons.mpr ⟨rfl, List.forall_mem_singleton.mpr rfl⟩

theorem named_criteria {column : String} (h : column ≠ "sk") (hcolumn : Token.Identifier column)
    (value : String) : (Comment.criteria column value).Named := by
  rw [Criteria.Named, entries_criteria h]
  exact List.forall_mem_cons.mpr ⟨hcolumn, List.forall_mem_singleton.mpr (by decide)⟩

/-! ## What the table shows -/

theorem proper_shared (entries : List Entry) (hindex : ∀ i ∈ index, i = authorSchema) :
    (shared entries).Proper index where
  sound := Table.sound_ofPuts _ _
  numeric := Table.numeric_ofPuts fun x _ => numeric_tableSchema x
  indexNumeric := by
    intro i hi x _
    rw [hindex i hi]
    exact KeySchema.numeric_of_strings (by decide) x

/-- A key of a comment. -/
theorem Comment.extract_gathering (c : Comment) {column value : String}
    (h : NameMap.get? c.toItem column = some (.string value)) :
    (gathering column).extract c.toItem = .ok (.string value, .string (sortPrefix ++ c.id)) :=
  KeySchema.extract_eq_ok_iff.mpr
    ⟨KeyAttribute.read_eq_ok_iff.mpr ⟨_, h, rfl, rfl⟩,
      KeyAttribute.read_eq_ok_iff.mpr ⟨_, get?_toItem c "sk", rfl, rfl⟩⟩

/-- A comment satisfies the key condition if it has the value. -/
theorem Comment.selects_gathering (c : Comment) {column value : String}
    (h : NameMap.get? c.toItem column = some (.string value)) (wanted : String) :
    (gathering column).selects (commentsWith wanted) c.toItem = true ↔ value = wanted := by
  rw [KeySchema.selects_of_extract (c.extract_gathering h), KeyCondition.matches, commentsWith,
    Bool.and_eq_true, SortKey.same_iff]
  simp [SortCondition.holds, SortKey.value, SortKey.ofValue]

theorem Comment.place_table (c : Comment) : (shared entries).place none c.toItem =
    some [.string c.postId, .string (sortPrefix ++ c.id)] := by
  rw [IndexedTable.place, shared, Table.schema_ofPuts, c.key?_toItem]
  rfl

theorem Comment.place_author (c : Comment) :
    (shared entries).place (some authorSchema) c.toItem =
      some [.string c.author, .string (sortPrefix ++ c.id), .string c.postId,
        .string (sortPrefix ++ c.id)] := by
  have hauthor : authorSchema.key? c.toItem =
      some (.string c.author, .string (sortPrefix ++ c.id)) :=
    KeySchema.key?_of_extract (c.extract_gathering (get?_toItem c "author"))
  rw [IndexedTable.place, shared, Table.schema_ofPuts, hauthor, c.key?_toItem]
  rfl

/-- The sort key of a post does not have the prefix. -/
theorem Post.selects_table (p : Post) (postId : String) :
    tableSchema.selects (commentsWith postId) p.toItem = false := by
  have hx := extract_tableSchema (get?_toItem p "pk") (get?_toItem p "sk")
  have hprefix : (SortCondition.beginsWith (.string Comment.sortPrefix)).holds
      (.string Post.sortKey) = false := by decide
  rw [KeySchema.selects_of_extract hx, KeyCondition.matches, commentsWith, Option.map_some,
    Option.getD_some, hprefix, Bool.and_false]

/-- A post has no author, so that it is not in the index. -/
theorem Post.place_author (p : Post) : (shared entries).place (some authorSchema) p.toItem =
    none := by
  have hnone : authorSchema.key? p.toItem = none :=
    KeySchema.key?_eq_none_iff.mpr
      ⟨⟨"author", .string⟩, List.mem_cons_self, Or.inl (get?_toItem p "author")⟩
  rw [IndexedTable.place, hnone]
  rfl

/-- The table, or an index, has the comments with one value of a column together.  There is no post
among them. -/
structure Gathers (entries : List Entry) (index : Option KeySchema) (column : String) : Prop where
  proper : (shared entries).Proper index
  schema : (shared entries).schemaOf index = gathering column
  identifier : Token.Identifier column
  ne_sort : column ≠ "sk"
  omits : ∀ (p : Post) (value : String), ((shared entries).place index p.toItem).isSome = true →
    (gathering column).selects (commentsWith value) p.toItem = false
  places : ∀ c : Comment, ((shared entries).place index c.toItem).isSome = true

theorem gathers_table (entries : List Entry) : Gathers entries none "pk" where
  proper := proper_shared entries fun i hi => absurd hi (Option.not_mem_none i)
  schema := Table.schema_ofPuts _ _
  identifier := by decide
  ne_sort := by decide
  omits := fun p value _ => p.selects_table value
  places := fun c => by rw [c.place_table, Option.isSome_some]

theorem gathers_author (entries : List Entry) : Gathers entries (some authorSchema) "author" where
  proper := proper_shared entries fun _ h => (Option.some.inj h).symm
  schema := rfl
  identifier := by decide
  ne_sort := by decide
  omits := fun p _ h => by
    rw [p.place_author] at h
    cases h
  places := fun c => by rw [c.place_author, Option.isSome_some]

/-! ## What is listed -/

/-- Comments are listed, and these are read back. -/
theorem Gathers.exists_shown {column value : String} (h : Gathers entries index column)
    (hvalid : ∀ e ∈ entries, e.Valid) {forward : Bool} {items : List Item}
    (hlists : (shared entries).Lists index forward
      ((gathering column).selects (commentsWith value)) items) (name : String)
    (settings : RepositorySettings) :
    ∃ shown : List Comment, items = shown.map Comment.toItem ∧
      Cursor.reports (Listing.report (comments name settings)) items = shown.map .item ∧
      ∀ c, c ∈ shown ↔ Comment.latest (commentsOf entries) c.postId c.id = some c ∧
        (gathering column).selects (commentsWith value) c.toItem = true := by
  have hmem : ∀ x, x ∈ items ↔ x ∈ (shared entries).table.items ∧
      ((shared entries).place index x).isSome = true ∧
      (gathering column).selects (commentsWith value) x = true := by
    intro x
    rw [hlists.perm.mem_iff, List.mem_filter, Bool.and_eq_true]
  have hcomment : ∀ x ∈ items, ∃ c : Comment, c.Valid ∧ c.toItem = x := by
    intro x hx
    obtain ⟨htable, hplace, hselected⟩ := (hmem x).mp hx
    obtain ⟨e, he, rfl⟩ := exists_entry_of_mem_items htable
    cases e with
    | post p => exact absurd hselected (ne_true_of_eq_false (h.omits p value hplace))
    | comment c => exact ⟨c, hvalid _ he, rfl⟩
  obtain ⟨shown, rfl⟩ : items ∈ Set.range (List.map Comment.toItem) := by
    rw [Set.range_list_map]
    intro x hx
    obtain ⟨c, -, rfl⟩ := hcomment x hx
    exact ⟨c, rfl⟩
  have hinj : Function.Injective Comment.toItem := fun _ _ => Comment.toItem_inj.mp
  refine ⟨shown, rfl, Cursor.reports_map ?_, ?_⟩
  · intro c hc
    obtain ⟨d, hd, heq⟩ := hcomment _ (List.mem_map_of_mem hc)
    obtain rfl := hinj heq
    exact mapError_eq_ok_iff.mpr (Comment.parse_toItem hd)
  · intro c
    rw [← toItem_mem_items_iff, ← List.mem_map_of_injective hinj, hmem]
    simp only [h.places c, true_and]

/-- A query for comments reports the ones that were put last, however it is cut into pages. -/
theorem Gathers.exists_drain {s : Store} {column : String} (h : Gathers entries index column)
    (ht : s.table name = .ok (shared entries)) (hvalid : ∀ e ∈ entries, e.Valid)
    (settings : RepositorySettings) (value : String) {o : QueryOptions}
    (hfilter : o.filter = none) (hnamed : (shared entries).named o.index = some index) :
    ∃ shown : List Comment,
      (∀ p : Paging, ∀ fuel, s.enoughSteps ≤ fuel →
        let listing := ((comments name settings).paged p).query (Comment.criteria column value)
          { o with pageSize := p.call }
        Listing.drain ((comments name settings).paged p) Store.client fuel listing (s.paged p) =
            (shown.map .item, s.paged p) ∧
          Listing.finishes ((comments name settings).paged p) Store.client fuel listing
            (s.paged p) = true) ∧
      (∀ c, c ∈ shown ↔ Comment.latest (commentsOf entries) c.postId c.id = some c ∧
        (gathering column).selects (commentsWith value) c.toItem = true) ∧
      shown.Pairwise fun a b =>
        Along o.forward ((shared entries).PlacedBefore index) a.toItem b.toItem := by
  have hsort : ∀ a ∈ ((shared entries).schemaOf index).sort,
      a.name ≠ ((shared entries).schemaOf index).partition.name := by
    rw [h.schema]
    intro a ha
    cases ha
    exact h.ne_sort.symm
  have hstates : Criteria.States ((shared entries).schemaOf index)
      (Comment.criteria column value).entries (commentsWith value) := by
    rw [h.schema]
    exact states_criteria h.ne_sort value
  obtain ⟨items, hlists, hdrain⟩ := Listing.drain_query_of_states (r := comments name settings)
    (named_criteria h.ne_sort h.identifier value) (unambiguous_criteria h.ne_sort value)
    (numeric_criteria h.ne_sort value) hfilter ht h.proper hnamed hsort hstates
  rw [h.schema] at hlists
  obtain ⟨shown, rfl, hreports, hmem⟩ := h.exists_shown hvalid hlists name settings
  rw [hreports] at hdrain
  exact ⟨shown, hdrain, hmem, List.pairwise_map.mp hlists.sorted⟩

/-! ## The order of comments -/

theorem compare_sortKey (a b : String) :
    KeyValue.compare (.string (Comment.sortPrefix ++ a)) (.string (Comment.sortPrefix ++ b)) = .lt ↔
      Text.bytes a < Text.bytes b := by
  rw [KeyValue.compare_string, Text.compare_eq_lt_iff, Text.bytes_append_lt_iff]

/-- Among the comments on a post the identifiers decide. -/
theorem Comment.placedBefore_table_iff {a b : Comment} (h : a.postId = b.postId) :
    (shared entries).PlacedBefore none a.toItem b.toItem ↔ Text.bytes a.id < Text.bytes b.id := by
  have hself : KeyValue.compare (.string b.postId) (.string b.postId) = .eq :=
    Std.ReflCmp.compare_self
  rw [IndexedTable.placedBefore_iff_of_place a.place_table b.place_table, h, Place.compare,
    List.compareLex_cons_cons, hself, Ordering.eq_then, List.compareLex_cons_cons,
    List.compareLex_nil_nil, Ordering.then_eq, compare_sortKey]

/-- Among the comments by an author the identifiers decide, and then the posts. -/
theorem Comment.placedBefore_author_iff {a b : Comment} (h : a.author = b.author) :
    (shared entries).PlacedBefore (some authorSchema) a.toItem b.toItem ↔
      Text.bytes a.id < Text.bytes b.id ∨
        a.id = b.id ∧ Text.bytes a.postId < Text.bytes b.postId := by
  have hself : ∀ v : KeyValue, v.compare v = .eq := fun v => Std.ReflCmp.compare_self
  have hid : KeyValue.compare (.string (sortPrefix ++ a.id)) (.string (sortPrefix ++ b.id)) = .eq ↔
      a.id = b.id := by
    rw [Std.LawfulEqCmp.compare_eq_iff_eq, KeyValue.string.injEq, String.append_right_inj]
  rw [IndexedTable.placedBefore_iff_of_place a.place_author b.place_author, h, Place.compare,
    List.compareLex_cons_cons, hself, Ordering.eq_then, List.compareLex_cons_cons,
    Ordering.then_eq_lt, compare_sortKey, hid]
  refine or_congr_right (and_congr_right fun heq => ?_)
  rw [heq, List.compareLex_cons_cons, List.compareLex_cons_cons, hself, List.compareLex_nil_nil,
    Ordering.then_eq, Ordering.then_eq, KeyValue.compare_string, Text.compare_eq_lt_iff]

/-! ## After a run -/

/-- Readers of comments see those that were put last, and no failures, and come to an end, however
the comments are cut into pages. -/
structure ShowsLatest (s : Store) (name : String) (cs : List Comment) : Prop where
  /-- The comments on a post are in the order of their identifiers, or against it. -/
  ofPost : ∀ (settings : RepositorySettings) (postId : String) (forward : Bool)
    (consistentRead : Option Bool), ∃ shown : List Comment,
      (∀ p : Paging, ∀ fuel, s.enoughSteps ≤ fuel →
        let listing := Comment.ofPost ((comments name settings).paged p) postId
          { pageSize := p.call, forward := forward, consistentRead := consistentRead }
        Listing.drain ((comments name settings).paged p) Store.client fuel listing (s.paged p) =
            (shown.map .item, s.paged p) ∧
          Listing.finishes ((comments name settings).paged p) Store.client fuel listing
            (s.paged p) = true) ∧
      (∀ c, c ∈ shown ↔ c.postId = postId ∧ Comment.latest cs postId c.id = some c) ∧
      shown.Pairwise (Along forward fun a b => Text.bytes a.id < Text.bytes b.id)
  /-- The comments by an author are in the order of their identifiers and then of their posts. -/
  byAuthor : ∀ (settings : RepositorySettings) (author : String), ∃ shown : List Comment,
      (∀ p : Paging, ∀ fuel, s.enoughSteps ≤ fuel →
        let listing := Comment.byAuthor ((comments name settings).paged p) author
        Listing.drain ((comments name settings).paged p) Store.client fuel listing (s.paged p) =
            (shown.map .item, s.paged p) ∧
          Listing.finishes ((comments name settings).paged p) Store.client fuel listing
            (s.paged p) = true) ∧
      (∀ c, c ∈ shown ↔ c.author = author ∧ Comment.latest cs c.postId c.id = some c) ∧
      shown.Pairwise fun a b => Text.bytes a.id < Text.bytes b.id ∨
        a.id = b.id ∧ Text.bytes a.postId < Text.bytes b.postId

theorem Log.Holds.showsLatest {log : Log} (h : log.Holds name) :
    ShowsLatest log.store name log.comments where
  ofPost := by
    intro settings postId forward consistentRead
    obtain ⟨shown, hdrain, hmem, hsorted⟩ := (gathers_table log.entries).exists_drain h.table
      h.valid settings postId (o := { forward := forward, consistentRead := consistentRead })
      rfl rfl
    have hmem' : ∀ c, c ∈ shown ↔
        c.postId = postId ∧ Comment.latest log.comments postId c.id = some c := by
      intro c
      rw [hmem, c.selects_gathering (Comment.get?_toItem c "pk")]
      constructor
      · rintro ⟨hlatest, rfl⟩
        exact ⟨rfl, hlatest⟩
      · rintro ⟨rfl, hlatest⟩
        exact ⟨hlatest, rfl⟩
    refine ⟨shown, hdrain, hmem', hsorted.imp_of_mem ?_⟩
    intro a b ha hb hab
    have hpost : a.postId = b.postId := ((hmem' a).mp ha).1.trans ((hmem' b).mp hb).1.symm
    cases forward with
    | true => exact (Comment.placedBefore_table_iff hpost).mp hab
    | false => exact (Comment.placedBefore_table_iff hpost.symm).mp hab
  byAuthor := by
    intro settings author
    obtain ⟨shown, hdrain, hmem, hsorted⟩ := (gathers_author log.entries).exists_drain h.table
      h.valid settings author (o := { index := some Comment.authorIndex }) rfl rfl
    have hmem' : ∀ c, c ∈ shown ↔
        c.author = author ∧ Comment.latest log.comments c.postId c.id = some c := by
      intro c
      rw [hmem, c.selects_gathering (Comment.get?_toItem c "author"), and_comm]
      rfl
    refine ⟨shown, ?_, hmem', hsorted.imp_of_mem ?_⟩
    · -- a call for an author asks for no page size of its own
      intro p fuel hfuel
      have hnone : ∀ n ∈ (none : Option Nat), 0 < n := fun n hn => absurd hn (Option.not_mem_none n)
      exact hdrain ⟨none, p.settings, p.store, hnone, p.settings_pos, p.store_pos⟩ fuel hfuel
    · intro a b ha hb hab
      have hauthor : a.author = b.author := ((hmem' a).mp ha).1.trans ((hmem' b).mp hb).1.symm
      exact (Comment.placedBefore_author_iff hauthor).mp hab

/-- Posts and comments share a table.  After every run of puts of posts and comments, valid or not,
readers of comments see the comments that were put last, in the order of their identifiers.  A put
of a post after that, whether it succeeds or fails, leaves what they see and every comment as it
was, and a put of a comment leaves every post as it was. -/
theorem run_shares_table {name : String} {s₀ s : Store} {answer : TableCreated}
    (h : s₀.createTable (creation name) = .ok (answer, s)) (writes : List Write) :
    ShowsLatest (Log.run name s writes).store name (Log.run name s writes).comments ∧
    (∀ settings fresh draft,
      let after := ((Log.run name s writes).perform name (.post settings fresh draft)).store
      ShowsLatest after name (Log.run name s writes).comments ∧
      ∀ postId id c, after.getItem ⟨name, Comment.keyOf postId id, c⟩ =
        (Log.run name s writes).store.getItem ⟨name, Comment.keyOf postId id, c⟩) ∧
    ∀ settings fresh draft,
      let after := ((Log.run name s writes).perform name (.comment settings fresh draft)).store
      ∀ postId c, after.getItem ⟨name, Post.keyOf postId, c⟩ =
        (Log.run name s writes).store.getItem ⟨name, Post.keyOf postId, c⟩ := by
  have hrun := Log.holds_run (Log.table_creation h) writes
  refine ⟨hrun.showsLatest, ?_, ?_⟩
  · intro settings fresh draft
    refine ⟨?_, hrun.getItem_perform_post settings fresh draft⟩
    have hafter := (hrun.perform (.post settings fresh draft)).showsLatest
    rwa [Log.comments_perform_post] at hafter
  · intro settings fresh draft
    exact hrun.getItem_perform_comment settings fresh draft

/-- A store with the table. -/
def blogStore : Store := ⟨[("blog", shared [])], none⟩

/-- A run in which a comment gets another author, another one an identifier that is made up, and
the last put is not valid. -/
def moves : List Write :=
  [.post {} "" ⟨some "p", some "Title", none⟩,
    .comment {} "" ⟨some "p", some "b", some "ann", some "first"⟩,
    .comment {} "" ⟨some "q", some "b", some "bob", some ""⟩,
    .comment {} "1" ⟨some "p", none, some "bob", some ""⟩,
    .comment {} "" ⟨some "p", some "b", some "bob", some "second"⟩,
    .comment {} "" ⟨some "p", some "b", some "bob#", some "third"⟩]

theorem run_shares_table_moves :
    let s := (Log.run "blog" blogStore moves).store
    (Store.empty none).createTable (creation "blog") = .ok (⟨"blog"⟩, blogStore) ∧
    (∃ shown : List Comment, (∀ p : Paging, ∀ fuel, s.enoughSteps ≤ fuel →
      let listing := Comment.ofPost ((comments "blog" {}).paged p) "p"
        { pageSize := p.call, forward := false }
      Listing.drain ((comments "blog" {}).paged p) Store.client fuel listing (s.paged p) =
          (shown.map .item, s.paged p) ∧
        Listing.finishes ((comments "blog" {}).paged p) Store.client fuel listing (s.paged p) =
          true) ∧
      shown = [⟨"p", "c-1", "bob", ""⟩, ⟨"p", "b", "bob", "second"⟩]) ∧
    ∃ shown : List Comment, (∀ p : Paging, ∀ fuel, s.enoughSteps ≤ fuel →
      let listing := Comment.byAuthor ((comments "blog" {}).paged p) "ann"
      Listing.drain ((comments "blog" {}).paged p) Store.client fuel listing (s.paged p) =
          (shown.map .item, s.paged p) ∧
        Listing.finishes ((comments "blog" {}).paged p) Store.client fuel listing (s.paged p) =
          true) ∧
      ⟨"p", "b", "ann", "first"⟩ ∉ shown := by
  intro s
  have hcreate : (Store.empty none).createTable (creation "blog") = .ok (⟨"blog"⟩, blogStore) := by
    decide +kernel
  obtain ⟨hshows, -⟩ := run_shares_table hcreate moves
  refine ⟨hcreate, ?_, ?_⟩
  · obtain ⟨shown, hdrain, -⟩ := hshows.ofPost {} "p" false none
    refine ⟨shown, hdrain, ?_⟩
    have hitems := congrArg Prod.fst (hdrain Listing.oneByOne 12 (by decide +kernel)).1
    have hinj : Function.Injective
        (Event.item : Comment → Event Comment (RepositoryError StoreError)) :=
      fun _ _ h => Event.item.inj h
    refine List.map_injective_iff.mpr hinj (hitems.symm.trans ?_)
    decide +kernel
  · obtain ⟨shown, hdrain, hmem, -⟩ := hshows.byAuthor {} "ann"
    refine ⟨shown, hdrain, fun hfirst => ?_⟩
    have hlatest := ((hmem _).mp hfirst).2
    revert hlatest
    decide +kernel

end ItemStore.Blog
