import ItemStore.Proofs.BlogItems
import ItemStore.Proofs.StoreRun

/-!
# Putting through a repository

What is put through a repository is found again.  Where the entity is lawful for the key of the
table, a put either fails in validation and changes nothing, or puts one item
(`Repository.put_cases`).  The item is then found under its key and nothing else has changed
(`Blog.Keeps.exists_putItem`), and putting it again finds it in its place and leaves the store as
it is (`Store.putItem_of_find`).  The table of posts and comments has strings as its keys, so two
keys are the same key only if they are the same attributes.
-/

namespace ItemStore

/-! ## Putting what is there -/

namespace Table

theorem setPartition_partitionAt {v : Value} {ps : List (Value × Partition)}
    (hne : partitionAt ps v ≠ []) : setPartition v (partitionAt ps v) ps = ps := by
  induction ps with
  | nil => exact absurd rfl hne
  | cons q rest ih =>
      obtain ⟨w, p⟩ := q
      rw [partitionAt_cons] at hne ⊢
      rw [setPartition]
      by_cases hw : w = v
      · rw [if_pos hw, if_pos hw]
      · rw [if_neg hw] at hne ⊢
        rw [if_neg hw, ih hne]

/-- Putting the item that is there changes nothing. -/
theorem putAt_of_find {t : Table} {pk sk : SortKey} {item : Item} (h : t.find pk sk = some item) :
    t.putAt pk sk item = t := by
  have hne : partitionAt t.partitions (partitionOf pk.toValue) ≠ [] := by
    intro hnil
    rw [find, partition_eq, hnil] at h
    cases h
  have hpartition : OrderedMap.insert SortKey.compare sk item (t.partition pk.toValue) =
      t.partition pk.toValue := OrderedMap.insert_of_find? h
  rw [putAt, hpartition, h, partition_eq, setPartition_partitionAt hne]
  rfl

end Table

namespace Store

variable {s : Store} {name : String} {t : IndexedTable} {item : Item} {pk sk : SortKey}

/-- A put of an item that has a key. -/
theorem putItem_of_extract (ht : s.table name = .ok t)
    (hx : t.table.schema.extract item = .ok (pk, sk)) :
    s.putItem ⟨name, item⟩ = .ok ({}, { s with
      tables := NameMap.set s.tables name { t with table := t.table.putAt pk sk item } }) := by
  rw [putItem, ht]
  show (t.table.put item).mapError StoreError.key >>= _ = _
  rw [Table.put_of_extract hx]
  rfl

theorem putItem_of_find (ht : s.table name = .ok t)
    (hx : t.table.schema.extract item = .ok (pk, sk)) (h : t.table.find pk sk = some item) :
    s.putItem ⟨name, item⟩ = .ok ({}, s) := by
  have htables : NameMap.set s.tables name t = s.tables :=
    OrderedMap.insert_of_find? (table_eq_ok_iff.mp ht)
  rw [putItem_of_extract ht hx, Table.putAt_of_find h, htables]

/-- A read of a table. -/
theorem getItem_of_table {r : GetItem} (ht : s.table r.table = .ok t) :
    s.getItem r = if r.key.length ≠ t.table.schema.names.length then .error .keyMismatch
      else ((t.table.get r.key).mapError .key).map ItemRead.mk := by
  rw [getItem, ht]
  simp only [bind, Except.bind]
  split
  · rfl
  · cases t.table.get r.key <;> rfl

end Store

/-! ## The table of posts and comments -/

namespace KeySchema

/-- In a key of strings there are no number texts. -/
theorem numeric_of_strings {s : KeySchema} (h : ∀ a ∈ s.attributes, a.type = .string)
    (item : Item) : s.numeric item = true := by
  rw [numeric, List.all_eq_true]
  intro a ha
  rw [KeyAttribute.numeric, h a ha]

end KeySchema

namespace Blog

variable {s : Store} {name : String} {t : IndexedTable} {item : Item} {pk sk : String}

/-- The store has the table that posts and comments share. -/
structure Keeps (s : Store) (name : String) (t : IndexedTable) : Prop where
  table : s.table name = .ok t
  schema : t.table.schema = tableSchema
  sound : t.table.Sound

theorem numeric_tableSchema (item : Item) : tableSchema.numeric item = true :=
  KeySchema.numeric_of_strings (by decide) item

theorem Keeps.numeric (h : Keeps s name t) : t.table.Numeric := fun x _ => by
  rw [h.schema]
  exact numeric_tableSchema x

theorem get?_keyWith (pk sk name : String) :
    NameMap.get? (keyWith pk sk) name =
      if name = "sk" then some (.string sk) else if name = "pk" then some (.string pk)
      else none := by
  rw [← ofEntries_key]
  simp only [NameMap.ofEntries, List.foldl_cons, List.foldl_nil, NameMap.get?_set]
  rfl

theorem extract_keyWith (pk sk : String) :
    tableSchema.extract (keyWith pk sk) = .ok (.string pk, .string sk) :=
  extract_tableSchema (get?_keyWith pk sk "pk") (get?_keyWith pk sk "sk")

theorem keyWith_inj {pk' sk' : String} :
    keyWith pk sk = keyWith pk' sk' ↔ pk = pk' ∧ sk = sk' := by
  simp [keyWith]

/-- What the key of an item with a key is. -/
theorem exists_texts_of_extract {k : SortKey × SortKey} (hx : tableSchema.extract item = .ok k) :
    ∃ pk sk, k = (.string pk, .string sk) ∧ NameMap.get? item "pk" = some (.string pk) ∧
      NameMap.get? item "sk" = some (.string sk) := by
  have hread : ∀ {a : KeyAttribute} {j : SortKey}, a.type = .string → a.read item = .ok j →
      ∃ text, j = .string text ∧ NameMap.get? item a.name = some (.string text) := by
    intro a j htype hj
    obtain ⟨v, hv, hkind, rfl⟩ := KeyAttribute.read_eq_ok_iff.mp hj
    rw [htype] at hkind
    cases v <;> cases hkind
    exact ⟨_, rfl, hv⟩
  obtain ⟨pk, sk⟩ := k
  obtain ⟨hpk, hsk⟩ := KeySchema.extract_eq_ok_iff.mp hx
  obtain ⟨p, rfl, hp⟩ := hread rfl hpk
  obtain ⟨q, rfl, hq⟩ := hread (a := ⟨"sk", .string⟩) rfl hsk
  exact ⟨p, q, rfl, hp, hq⟩

/-- A key without other attributes is told by its texts. -/
theorem eq_keyWith_of_get? {key : PrimaryKey} (hlength : key.length = 2)
    (hpk : NameMap.get? key "pk" = some (.string pk))
    (hsk : NameMap.get? key "sk" = some (.string sk)) : key = keyWith pk sk := by
  obtain ⟨e, d, rfl⟩ := List.length_eq_two.mp hlength
  have hmempk := NameMap.mem_of_get? hpk
  have hmemsk := NameMap.mem_of_get? hsk
  simp only [List.mem_cons, List.not_mem_nil, or_false] at hmempk hmemsk
  have hne : ("pk", Value.string pk) ≠ ("sk", Value.string sk) := by simp
  rcases hmempk with rfl | rfl
  · rcases hmemsk with heq | rfl
    · exact absurd heq.symm hne
    · rfl
  · rcases hmemsk with rfl | heq
    · -- in the other order the partition attribute is not found
      have horder : compare "pk" "sk" = .lt := by decide +kernel
      simp [NameMap.get?, OrderedMap.find?, horder] at hpk
    · exact absurd heq.symm hne

/-! ## Reading items -/

theorem Keeps.getItem_keyWith (h : Keeps s name t) (pk sk : String) (c : Option Bool) :
    s.getItem ⟨name, keyWith pk sk, c⟩ = .ok ⟨t.table.find (.string pk) (.string sk)⟩ := by
  rw [Store.getItem_of_table h.table, h.schema, if_neg (by simp [keyWith, KeySchema.names,
    tableSchema]), Table.get, h.schema, extract_keyWith]
  rfl

/-- A key that is not one of two strings is refused, whatever the items are. -/
theorem Keeps.getItem_of_ne {s' : Store} {t' : IndexedTable} (h : Keeps s name t)
    (h' : Keeps s' name t') {key : PrimaryKey} (hkey : ∀ pk sk, key ≠ keyWith pk sk)
    (c : Option Bool) : s'.getItem ⟨name, key, c⟩ = s.getItem ⟨name, key, c⟩ := by
  rw [Store.getItem_of_table h'.table, Store.getItem_of_table h.table, h.schema, h'.schema]
  by_cases hlength : key.length = 2
  · cases hx : tableSchema.extract key with
    | error e => simp only [Table.get, h.schema, h'.schema, hx, bind, Except.bind]
    | ok k =>
        obtain ⟨pk, sk, -, hpk, hsk⟩ := exists_texts_of_extract hx
        exact absurd (eq_keyWith_of_get? hlength hpk hsk) (hkey pk sk)
  · have hrefused : key.length ≠ tableSchema.names.length := hlength
    rw [if_pos hrefused, if_pos hrefused]

/-! ## Putting items -/

/-- After a put, the item is found under its key, and every other key is read as before. -/
theorem Keeps.exists_putItem (h : Keeps s name t)
    (hx : tableSchema.extract item = .ok (.string pk, .string sk)) :
    ∃ s' t', s.putItem ⟨name, item⟩ = .ok ({}, s') ∧ Keeps s' name t' ∧
      t'.table.find (.string pk) (.string sk) = some item ∧
      ∀ key c, key ≠ keyWith pk sk → s'.getItem ⟨name, key, c⟩ = s.getItem ⟨name, key, c⟩ := by
  have hxt : t.table.schema.extract item = .ok (.string pk, .string sk) := by rw [h.schema, hx]
  have hput := Store.putItem_of_extract h.table hxt
  have hfind : ∀ pk' sk', (t.table.putAt (.string pk) (.string sk) item).find (.string pk')
      (.string sk') = if pk' = pk ∧ sk' = sk then some item
        else t.table.find (.string pk') (.string sk') := by
    intro pk' sk'
    rw [h.sound.find_putAt h.numeric rfl rfl rfl rfl]
    simp [SortKey.value]
  have h' : Keeps { s with tables := NameMap.set s.tables name { t with
      table := t.table.putAt (.string pk) (.string sk) item } } name { t with
        table := t.table.putAt (.string pk) (.string sk) item } :=
    ⟨(Store.table_set s name name _).trans (if_pos rfl), h.schema, h.sound.putAt hxt⟩
  refine ⟨_, _, hput, h', (hfind pk sk).trans (if_pos ⟨rfl, rfl⟩), ?_⟩
  intro key c hne
  by_cases hkey : ∃ pk' sk', key = keyWith pk' sk'
  · obtain ⟨pk', sk', rfl⟩ := hkey
    rw [h.getItem_keyWith, h'.getItem_keyWith, hfind, if_neg]
    rintro ⟨rfl, rfl⟩
    exact hne rfl
  · simp only [not_exists] at hkey
    exact h.getItem_of_ne h' hkey c

/-- Where nothing was written with a key, nothing is found. -/
theorem Keeps.find_eq_none {history : List Item} (h : Keeps s name t)
    (ht : t.table = Table.ofPuts t.table.schema history)
    (hnone : ∀ x ∈ history, tableSchema.keyOf x ≠ keyWith pk sk) :
    t.table.find (.string pk) (.string sk) = none := by
  rw [ht, h.schema, Table.represents_ofPuts (fun x _ => numeric_tableSchema x) _ _ rfl rfl]
  refine Option.eq_none_iff_forall_ne_some.mpr ?_
  intro x hx
  have hkey := Table.key?_of_lastPut hx
  obtain ⟨pk', sk', hxk, hvalues⟩ := KeySchema.exists_extract_of_key? hkey
  obtain ⟨p, q, hpq, hp, hq⟩ := exists_texts_of_extract hxk
  cases hpq
  obtain ⟨rfl, rfl⟩ : pk = p ∧ sk = q := by simpa [SortKey.value] using hvalues
  exact hnone x (Table.mem_of_lastPut hx) (keyOf_tableSchema hp hq)

end Blog

/-! ## Repositories -/

namespace Repository

open Blog (Keeps keyWith tableSchema)

variable {Draft Out : Type} {r : Repository Draft Out} {redraft : Out → Draft} {s s' : Store}
  {t : IndexedTable}

/-- What a put can do: it fails in validation and changes nothing, or it puts the item of the value
that it returns. -/
theorem put_cases (hlawful : r.entity.Lawful tableSchema redraft) (h : Keeps s r.table t)
    (fresh : String) (draft : Draft) :
    (∃ v, r.entity.validate fresh draft = .error v ∧
      r.put Store.client fresh draft s = (.error (.schema v), s)) ∨
    ∃ out item pk sk s', r.entity.validate fresh draft = .ok out ∧
      r.entity.toItem out = .ok item ∧ r.entity.parse item = .ok out ∧
      tableSchema.extract item = .ok (.string pk, .string sk) ∧ r.keyOf out = keyWith pk sk ∧
      tableSchema.keyOf item = keyWith pk sk ∧ s.putItem ⟨r.table, item⟩ = .ok ({}, s') ∧
      r.put Store.client fresh draft s = (.ok out, s') := by
  cases hv : r.entity.validate fresh draft with
  | error v =>
      refine Or.inl ⟨v, rfl, ?_⟩
      simp only [put, hv]
  | ok out =>
      obtain ⟨item, hitem, ⟨k, hx⟩, hkey, hparse⟩ := hlawful.laidOut hv
      obtain ⟨pk, sk, rfl, hpk, hsk⟩ := Blog.exists_texts_of_extract hx
      have hkeyOf := Blog.keyOf_tableSchema hpk hsk
      obtain ⟨s', t', hput, -⟩ := h.exists_putItem hx
      refine Or.inr ⟨out, item, pk, sk, s', rfl, hitem, hparse, hx, hkey.trans hkeyOf, hkeyOf,
        hput, ?_⟩
      simp only [put, hv, hitem, Store.client, hput]

theorem get_of_getItem {key : PrimaryKey} {item : Item} {out : Out}
    (h : s.getItem ⟨r.table, key, r.consistentRead none⟩ = .ok ⟨some item⟩)
    (hparse : r.entity.parse item = .ok out) : r.get Store.client key s = (.ok out, s) := by
  simp only [get, Store.client, h, hparse]
  rfl

theorem get_of_getItem_none {key : PrimaryKey}
    (h : s.getItem ⟨r.table, key, r.consistentRead none⟩ = .ok ⟨none⟩) :
    r.get Store.client key s = (.error (.notFound r.table key), s) := by
  simp only [get, Store.client, h]

/-- A get looks at one item only. -/
theorem get_congr {key : PrimaryKey} (h : s'.getItem ⟨r.table, key, r.consistentRead none⟩ =
    s.getItem ⟨r.table, key, r.consistentRead none⟩) :
    (r.get Store.client key s').1 = (r.get Store.client key s).1 := by
  simp only [get, Store.client, h]
  cases s.getItem ⟨r.table, key, r.consistentRead none⟩ with
  | error e => rfl
  | ok read =>
      obtain ⟨item⟩ := read
      cases item <;> rfl

/-- What is put through a repository comes back, and nothing else does. -/
structure RoundTrips (r : Repository Draft Out) (redraft : Out → Draft) (s : Store)
    (written : List Item) : Prop where
  /-- A put fails and changes nothing, or it returns a value: a get of its key returns the value, a
  get of any other key returns what it did before, its key is made of the key attributes of its
  item, and putting the draft that is rebuilt from it returns it again and changes nothing. -/
  put : ∀ fresh draft, (∃ e, r.put Store.client fresh draft s = (.error e, s)) ∨
    ∃ out s', r.put Store.client fresh draft s = (.ok out, s') ∧
      r.get Store.client (r.keyOf out) s' = (.ok out, s') ∧
      (∀ key, key ≠ r.keyOf out →
        (r.get Store.client key s').1 = (r.get Store.client key s).1) ∧
      (∃ item, r.entity.toItem out = .ok item ∧
        r.keyOf out = PrimaryKey.ofItem item tableSchema.names) ∧
      ∀ fresh', r.put Store.client fresh' (redraft out) s' = (.ok out, s')
  /-- A key that no item was written with is not found. -/
  absent : ∀ pk sk, (∀ x ∈ written, tableSchema.keyOf x ≠ keyWith pk sk) →
    r.get Store.client (keyWith pk sk) s = (.error (.notFound r.table (keyWith pk sk)), s)

/-- A lawful entity makes the repository keep its promise. -/
theorem roundTrips_of_lawful (hlawful : r.entity.Lawful tableSchema redraft)
    (h : Keeps s r.table t) {written : List Item}
    (hwritten : t.table = Table.ofPuts t.table.schema written) :
    r.RoundTrips redraft s written where
  put := by
    intro fresh draft
    rcases put_cases hlawful h fresh draft with
      ⟨v, -, hput⟩ | ⟨out, item, pk, sk, s', hv, hitem, hparse, hx, hkey, hkeyOf, hputItem, hput⟩
    · exact Or.inl ⟨_, hput⟩
    · obtain ⟨s'', t', hputItem', h', hfind, hother⟩ := h.exists_putItem hx
      cases hputItem.symm.trans hputItem'
      refine Or.inr ⟨out, s', hput, ?_, ?_, ⟨item, hitem, hkey.trans hkeyOf.symm⟩, ?_⟩
      · rw [hkey]
        refine get_of_getItem ?_ hparse
        rw [h'.getItem_keyWith, hfind]
      · intro key hne
        rw [hkey] at hne
        exact get_congr (hother key _ hne)
      · intro fresh'
        have hagain : s'.putItem ⟨r.table, item⟩ = .ok ({}, s') :=
          Store.putItem_of_find h'.table (by rw [h'.schema, hx]) hfind
        simp only [Repository.put, hlawful.redrafted hv fresh', hitem, Store.client, hagain]
  absent := by
    intro pk sk hnone
    refine get_of_getItem_none ?_
    rw [h.getItem_keyWith, h.find_eq_none hwritten hnone]

end Repository

namespace Blog

/-- The repository of the posts in a table. -/
def posts (name : String) (settings : RepositorySettings) : Repository PostDraft Post :=
  ⟨name, Post.entity, settings⟩

/-- The repository of the comments in a table. -/
def comments (name : String) (settings : RepositorySettings) : Repository CommentDraft Comment :=
  ⟨name, Comment.entity, settings⟩

/-- Posts and comments come back.  For every state of their table that a run reaches, whatever else
was written into it, every draft and every fresh identifier: what is put through the repository of
posts, or through that of comments, is what a get returns from then on, until it is put again. -/
theorem round_trips (defaultLimit : Option Nat) (ops : List Store.Operation) (name : String)
    (t : IndexedTable) (settings : RepositorySettings)
    (ht : ((Store.empty defaultLimit).run ops).table name = .ok t)
    (hschema : t.table.schema = tableSchema) :
    (posts name settings).RoundTrips Post.redraft ((Store.empty defaultLimit).run ops)
      ((Store.empty defaultLimit).written name ops) ∧
    (comments name settings).RoundTrips Comment.redraft ((Store.empty defaultLimit).run ops)
      ((Store.empty defaultLimit).written name ops) := by
  have hsound := (Store.reachable_run defaultLimit ops).sound
  have h : Keeps ((Store.empty defaultLimit).run ops) name t :=
    ⟨ht, hschema, hsound _ (Store.mem_of_table ht)⟩
  have hwritten := (Store.table_eq_ofPuts defaultLimit ops).1 t ht
  exact ⟨Repository.roundTrips_of_lawful Post.lawful h hwritten,
    Repository.roundTrips_of_lawful Comment.lawful h hwritten⟩

/-- The creation of the table, with the index by author. -/
def creation (name : String) : CreateTable where
  table := name
  key := [⟨"pk", .partition⟩, ⟨"sk", .sort⟩]
  definitions := [⟨"pk", .string⟩, ⟨"sk", .string⟩, ⟨"author", .string⟩]
  indexes := [⟨Comment.authorIndex, [⟨"author", .partition⟩, ⟨"sk", .sort⟩]⟩]

/-- A post, and a comment that has the separator in its identifier, in a table that has an item of
another kind. -/
theorem round_trips_note :
    let s := (Store.empty none).run [.createTable (creation "blog"),
      .putItem ⟨"blog", keyWith "p" "note"⟩]
    let p : Post := ⟨"p", " A title ", ""⟩
    let c : Comment := ⟨"p", "a#b", "ann", ""⟩
    (s.table "blog").map (·.table.schema) = .ok tableSchema ∧
    (∃ s', (posts "blog" {}).put Store.client "" p.redraft s = (.ok p, s') ∧
      (posts "blog" {}).get Store.client ((posts "blog" {}).keyOf p) s' = (.ok p, s')) ∧
    ∃ s', (comments "blog" {}).put Store.client "" c.redraft s = (.ok c, s') ∧
      (comments "blog" {}).get Store.client ((comments "blog" {}).keyOf c) s' = (.ok c, s') := by
  intro s p c
  have hschema : (s.table "blog").map (·.table.schema) = .ok tableSchema := by decide +kernel
  refine ⟨hschema, ?_⟩
  cases ht : s.table "blog" with
  | error e =>
      rw [ht] at hschema
      cases hschema
  | ok t =>
      rw [ht] at hschema
      obtain ⟨⟨hputPost, -⟩, hputComment, -⟩ :=
        round_trips none _ "blog" t {} ht (Except.ok.inj hschema)
      constructor
      · have hok : ((posts "blog" {}).put Store.client "" p.redraft s).1 = .ok p := by
          decide +kernel
        rcases hputPost "" p.redraft with ⟨e, he⟩ | ⟨out, s', hs', hget, -⟩
        · rw [he] at hok
          cases hok
        · rw [hs'] at hok
          cases hok
          exact ⟨s', hs', hget⟩
      · have hok : ((comments "blog" {}).put Store.client "" c.redraft s).1 = .ok c := by
          decide +kernel
        rcases hputComment "" c.redraft with ⟨e, he⟩ | ⟨out, s', hs', hget, -⟩
        · rw [he] at hok
          cases hok
        · rw [hs'] at hok
          cases hok
          exact ⟨s', hs', hget⟩

end Blog

end ItemStore
