import ItemStore.Proofs.RepositoryPut

/-!
# Runs of posts and comments

A run is made of puts through repositories of posts and of comments on one table.  Some fail in
validation; what the others return is kept in a log, `Blog.Log`.  After every run the table holds
what its log says, `Log.Holds`: it is the table that the items of the entries make, each put over
what was there with its key, and every entry is valid (`holds_run`).  Posts and comments never have
the same key, so the comments in the table are those that the log has last for their keys, whatever
posts were put (`toItem_mem_items_iff`), and a put of the one kind leaves every read of the other
kind as it was (`getItem_perform_post`, `getItem_perform_comment`).
-/

namespace ItemStore

namespace Repository

open Blog (Keeps tableSchema)

variable {Draft Out : Type} {r : Repository Draft Out} {redraft : Out → Draft} {s : Store}
  {t : IndexedTable}

/-- What a put does to the table: nothing, or it puts the item of the value that it returns and
leaves every read of another key as it was. -/
theorem put_effect (hlawful : r.entity.Lawful tableSchema redraft) (h : Keeps s r.table t)
    (fresh : String) (draft : Draft) :
    (∃ e, r.put Store.client fresh draft s = (.error e, s)) ∨
    ∃ out item s', r.entity.validate fresh draft = .ok out ∧ r.entity.toItem out = .ok item ∧
      r.put Store.client fresh draft s = (.ok out, s') ∧
      s'.table r.table = .ok (t.puts [item]) ∧
      ∀ key c, key ≠ r.keyOf out → s'.getItem ⟨r.table, key, c⟩ = s.getItem ⟨r.table, key, c⟩ := by
  rcases put_cases hlawful h fresh draft with
    ⟨v, -, hput⟩ | ⟨out, item, pk, sk, s', hv, hitem, -, hx, hkey, -, hputItem, hput⟩
  · exact Or.inl ⟨_, hput⟩
  · have hxt : t.table.schema.extract item = .ok (.string pk, .string sk) := by rw [h.schema, hx]
    have htable : s'.table r.table = .ok (t.puts [item]) := by
      cases (Store.putItem_of_extract h.table hxt).symm.trans hputItem
      rw [Store.table_set, if_pos rfl, IndexedTable.puts, List.foldl_cons,
        Table.attempt_of_extract hxt]
      rfl
    obtain ⟨s'', -, hputItem', -, -, hother⟩ := h.exists_putItem hx
    cases hputItem.symm.trans hputItem'
    exact Or.inr ⟨out, item, s', hv, hitem, hput, htable, fun key c hne =>
      hother key c (hkey ▸ hne)⟩

/-- A put leaves every read of another key as it was. -/
theorem getItem_put_of_ne (hlawful : r.entity.Lawful tableSchema redraft) (h : Keeps s r.table t)
    (fresh : String) (draft : Draft) {key : PrimaryKey} (hkey : ∀ out, key ≠ r.keyOf out)
    (c : Option Bool) : (r.put Store.client fresh draft s).2.getItem ⟨r.table, key, c⟩ =
      s.getItem ⟨r.table, key, c⟩ := by
  rcases put_effect hlawful h fresh draft with ⟨e, he⟩ | ⟨out, _, s', -, -, hput, -, hother⟩
  · rw [he]
  · rw [hput]
    exact hother key c (hkey out)

end Repository

namespace Blog

/-! ## The keys of posts and comments -/

theorem Comment.sortPrefix_append_ne (id : String) : sortPrefix ++ id ≠ Post.sortKey := by
  intro h
  have hlength := congrArg String.length h
  have hprefix : sortPrefix.length = 8 := by decide
  have hpost : Post.sortKey.length = 4 := by decide
  rw [String.length_append, hprefix, hpost] at hlength
  omega

theorem key?_tableSchema {item : Item} {pk sk : String}
    (hpk : NameMap.get? item "pk" = some (.string pk))
    (hsk : NameMap.get? item "sk" = some (.string sk)) :
    tableSchema.key? item = some (.string pk, .string sk) :=
  KeySchema.key?_of_extract (extract_tableSchema hpk hsk)

theorem Post.key?_toItem (p : Post) :
    tableSchema.key? p.toItem = some (.string p.id, .string sortKey) :=
  key?_tableSchema (get?_toItem p "pk") (get?_toItem p "sk")

theorem Comment.key?_toItem (c : Comment) :
    tableSchema.key? c.toItem = some (.string c.postId, .string (sortPrefix ++ c.id)) :=
  key?_tableSchema (get?_toItem c "pk") (get?_toItem c "sk")

theorem Comment.toItem_inj {c d : Comment} : c.toItem = d.toItem ↔ c = d := by
  refine ⟨fun h => ?_, congrArg _⟩
  obtain ⟨postId, id, author, body⟩ := c
  obtain ⟨postId', id', author', body'⟩ := d
  simp only [toItem_eq, List.cons.injEq, Prod.mk.injEq, Value.string.injEq, true_and,
    String.append_right_inj, and_true] at h
  obtain ⟨rfl, rfl, rfl, rfl⟩ := h
  rfl

theorem Comment.keyOf_ne (postId id postId' : String) : keyOf postId id ≠ Post.keyOf postId' := by
  rw [keyOf, Post.keyOf, ofEntries_key, ofEntries_key, Ne, keyWith_inj]
  exact fun h => sortPrefix_append_ne id h.2

/-! ## Runs -/

/-- A put through a repository of posts or of comments, with the text for an identifier that has to
be made up. -/
inductive Write where
  | post (settings : RepositorySettings) (fresh : String) (draft : PostDraft)
  | comment (settings : RepositorySettings) (fresh : String) (draft : CommentDraft)

/-- What a put returns when it succeeds. -/
inductive Entry where
  | post (p : Post)
  | comment (c : Comment)

namespace Entry

def item : Entry → Item
  | post p => p.toItem
  | comment c => c.toItem

def comment? : Entry → Option Comment
  | post _ => none
  | comment c => some c

def Valid : Entry → Prop
  | post p => p.Valid
  | comment c => c.Valid

end Entry

/-- What the put returns, and the store after it. -/
def Write.send (name : String) (s : Store) :
    Write → Except (RepositoryError StoreError) Entry × Store
  | post settings fresh draft =>
      (((posts name settings).put Store.client fresh draft s).1.map .post,
        ((posts name settings).put Store.client fresh draft s).2)
  | comment settings fresh draft =>
      (((comments name settings).put Store.client fresh draft s).1.map .comment,
        ((comments name settings).put Store.client fresh draft s).2)

/-- A store, with what the puts of a run have returned so far, in order. -/
structure Log where
  store : Store
  entries : List Entry

/-- The table that the entries make, with its index by author. -/
def shared (entries : List Entry) : IndexedTable :=
  ⟨Table.ofPuts tableSchema (entries.map Entry.item), [(Comment.authorIndex, authorSchema)]⟩

/-- The comments among the entries. -/
def commentsOf (entries : List Entry) : List Comment := entries.filterMap Entry.comment?

theorem commentsOf_concat (entries : List Entry) (e : Entry) :
    commentsOf (entries ++ [e]) = commentsOf entries ++ e.comment?.toList := by
  rw [commentsOf, List.filterMap_append, commentsOf]
  cases e <;> rfl

namespace Log

/-- The comments that were put. -/
def comments (log : Log) : List Comment := commentsOf log.entries

/-- The log after a put. -/
def perform (name : String) (log : Log) (w : Write) : Log where
  store := (w.send name log.store).2
  entries := log.entries ++ (w.send name log.store).1.toOption.toList

/-- The log after a run. -/
def run (name : String) (s : Store) (writes : List Write) : Log :=
  writes.foldl (perform name) ⟨s, []⟩

/-- The table is the one that the entries make, and these are valid. -/
structure Holds (name : String) (log : Log) : Prop where
  table : log.store.table name = .ok (shared log.entries)
  valid : ∀ e ∈ log.entries, e.Valid

variable {name : String} {log : Log}

theorem Holds.keeps (h : log.Holds name) : Keeps log.store name (shared log.entries) :=
  ⟨h.table, Table.schema_ofPuts _ _, Table.sound_ofPuts _ _⟩

/-- A put fails and changes nothing, or it adds a valid entry and puts its item. -/
theorem Holds.send_cases (h : log.Holds name) (w : Write) :
    (∃ e, w.send name log.store = (.error e, log.store)) ∨
    ∃ entry s', w.send name log.store = (.ok entry, s') ∧ entry.Valid ∧
      s'.table name = .ok ((shared log.entries).puts [entry.item]) := by
  cases w with
  | post settings fresh draft =>
      rcases Repository.put_effect (r := posts name settings) Post.lawful h.keeps fresh draft with
        ⟨e, he⟩ | ⟨p, item, s', hv, hitem, hput, htable, -⟩
      · exact Or.inl ⟨e, by rw [Write.send, he]; rfl⟩
      · cases hitem
        obtain ⟨_, -, -, hvalid⟩ := Post.validate_eq_ok_iff.mp hv
        exact Or.inr ⟨.post p, s', by rw [Write.send, hput]; rfl, hvalid, htable⟩
  | comment settings fresh draft =>
      rcases Repository.put_effect (r := Blog.comments name settings) Comment.lawful h.keeps fresh
        draft with ⟨e, he⟩ | ⟨c, item, s', hv, hitem, hput, htable, -⟩
      · exact Or.inl ⟨e, by rw [Write.send, he]; rfl⟩
      · cases hitem
        obtain ⟨_, _, _, -, -, -, -, hvalid⟩ := Comment.validate_eq_ok_iff.mp hv
        exact Or.inr ⟨.comment c, s', by rw [Write.send, hput]; rfl, hvalid, htable⟩

theorem shared_concat (entries : List Entry) (e : Entry) :
    shared (entries ++ [e]) = (shared entries).puts [e.item] := by
  rw [shared, List.map_append, List.map_singleton, Table.ofPuts_concat]
  rfl

/-- A put keeps the table and the log together. -/
theorem Holds.perform (h : log.Holds name) (w : Write) : (log.perform name w).Holds name := by
  rcases h.send_cases w with ⟨e, he⟩ | ⟨entry, s', hsend, hvalid, htable⟩
  · have hsame : log.perform name w = log := by
      rw [Log.perform, he]
      exact congrArg (Log.mk log.store) (List.append_nil _)
    rwa [hsame]
  · have hnext : log.perform name w = ⟨s', log.entries ++ [entry]⟩ := by
      rw [Log.perform, hsend]
      rfl
    rw [hnext]
    refine ⟨htable.trans (congrArg _ (shared_concat _ _).symm), ?_⟩
    intro e he
    rcases List.mem_append.mp he with he | he
    · exact h.valid e he
    · rwa [List.mem_singleton.mp he]

/-- A table that was created has no entries. -/
theorem table_creation {s s' : Store} {a : TableCreated}
    (h : s.createTable (creation name) = .ok (a, s')) : s'.table name = .ok (shared []) := by
  have hschema : KeySchema.ofElements (creation name).definitions (creation name).key =
      .ok tableSchema := rfl
  have hindexes : Store.declareIndexes (creation name).definitions [] (creation name).indexes =
      .ok [(Comment.authorIndex, authorSchema)] := rfl
  rw [Store.createTable, hschema, hindexes] at h
  split at h
  · cases h
  · simp only [bind, Except.bind, Except.mapError] at h
    split at h
    · cases h
    · cases h
      exact (Store.table_set s name name _).trans (if_pos rfl)

/-- After every run the table is what the log says. -/
theorem holds_run {s : Store} (h : s.table name = .ok (shared [])) (writes : List Write) :
    (run name s writes).Holds name := by
  induction writes using List.reverseRecOn with
  | nil => exact ⟨h, fun e he => absurd he List.not_mem_nil⟩
  | append_singleton writes w ih =>
      rw [run, List.foldl_append]
      exact ih.perform w

/-! ## Posts and comments apart -/

/-- A put of a post adds no comment. -/
theorem comments_perform_post (name : String) (log : Log) (settings : RepositorySettings)
    (fresh : String) (draft : PostDraft) :
    (log.perform name (.post settings fresh draft)).comments = log.comments := by
  rw [comments, perform, Write.send]
  cases ((posts name settings).put Store.client fresh draft log.store).1 with
  | error e => exact congrArg commentsOf (List.append_nil _)
  | ok p => exact (commentsOf_concat log.entries (.post p)).trans (List.append_nil _)

/-- A put of a post leaves every read of a comment as it was. -/
theorem Holds.getItem_perform_post (h : log.Holds name) (settings : RepositorySettings)
    (fresh : String) (draft : PostDraft) (postId id : String) (c : Option Bool) :
    (log.perform name (.post settings fresh draft)).store.getItem
      ⟨name, Comment.keyOf postId id, c⟩ = log.store.getItem ⟨name, Comment.keyOf postId id, c⟩ :=
  Repository.getItem_put_of_ne (r := posts name settings) Post.lawful h.keeps fresh draft
    (fun p => Comment.keyOf_ne postId id p.id) c

/-- A put of a comment leaves every read of a post as it was. -/
theorem Holds.getItem_perform_comment (h : log.Holds name) (settings : RepositorySettings)
    (fresh : String) (draft : CommentDraft) (postId : String) (c : Option Bool) :
    (log.perform name (.comment settings fresh draft)).store.getItem
      ⟨name, Post.keyOf postId, c⟩ = log.store.getItem ⟨name, Post.keyOf postId, c⟩ :=
  Repository.getItem_put_of_ne (r := Blog.comments name settings) Comment.lawful h.keeps fresh
    draft (fun d => (Comment.keyOf_ne d.postId d.id postId).symm) c

end Log

/-! ## The comments in the table -/

/-- The comment that was put last with an identifier on a post. -/
def Comment.latest (cs : List Comment) (postId id : String) : Option Comment :=
  cs.reverse.find? fun c => c.postId = postId ∧ c.id = id

theorem Comment.latest_concat (cs : List Comment) (c : Comment) (postId id : String) :
    latest (cs ++ [c]) postId id =
      if c.postId = postId ∧ c.id = id then some c else latest cs postId id := by
  rw [latest, List.reverse_append, List.reverse_singleton, List.singleton_append, List.find?_cons]
  by_cases h : c.postId = postId ∧ c.id = id
  · rw [if_pos h, decide_eq_true h]
  · rw [if_neg h, decide_eq_false h]
    rfl

/-- Under the key of a comment the last item is that of the last comment. -/
theorem lastPut_items (entries : List Entry) (postId id : String) :
    Table.lastPut tableSchema (entries.map Entry.item)
        (.string postId, .string (Comment.sortPrefix ++ id)) =
      (Comment.latest (commentsOf entries) postId id).map Comment.toItem := by
  induction entries using List.reverseRecOn with
  | nil => rfl
  | append_singleton entries e ih =>
      rw [List.map_append, List.map_singleton, Table.lastPut_concat, commentsOf_concat]
      cases e with
      | post p =>
          have hkey : tableSchema.key? p.toItem ≠
              some (.string postId, .string (Comment.sortPrefix ++ id)) := by
            simp [Post.key?_toItem, (Comment.sortPrefix_append_ne id).symm]
          rw [Entry.item, if_neg hkey, ih]
          exact congrArg _ (congrArg (fun cs => Comment.latest cs postId id)
            (List.append_nil _).symm)
      | comment c =>
          have hkey : tableSchema.key? c.toItem =
              some (.string postId, .string (Comment.sortPrefix ++ id)) ↔
              c.postId = postId ∧ c.id = id := by
            simp [Comment.key?_toItem]
          rw [Entry.item, ih]
          simp only [hkey, Entry.comment?, Option.toList_some, Comment.latest_concat]
          split <;> rfl

/-- The comments in the table are those that the log has last. -/
theorem toItem_mem_items_iff {entries : List Entry} {c : Comment} :
    c.toItem ∈ (shared entries).table.items ↔
      Comment.latest (commentsOf entries) c.postId c.id = some c := by
  rw [shared, Table.mem_items_ofPuts fun x _ => numeric_tableSchema x]
  constructor
  · rintro ⟨k, hk⟩
    obtain rfl := Option.some.inj ((Table.key?_of_lastPut hk).symm.trans c.key?_toItem)
    rw [lastPut_items] at hk
    obtain ⟨d, hd, hitem⟩ := Option.map_eq_some_iff.mp hk
    rw [hd, Comment.toItem_inj.mp hitem]
  · intro h
    exact ⟨_, (lastPut_items entries c.postId c.id).trans (by rw [h]; rfl)⟩

/-- Every item in the table is that of an entry. -/
theorem exists_entry_of_mem_items {entries : List Entry} {x : Item}
    (h : x ∈ (shared entries).table.items) : ∃ e ∈ entries, e.item = x :=
  List.mem_map.mp (Table.mem_of_mem_items_ofPuts h)

end Blog

end ItemStore
