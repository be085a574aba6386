import ItemStore.Blog.Comment
import ItemStore.Blog.Post
import ItemStore.Proofs.ItemKey
import ItemStore.Proofs.Result

/-!
# The items of posts and comments

Posts and comments are validated, laid out as items, told apart by keys and read back by four
functions that know nothing of each other.  They fit together, `Entity.Lawful`: what validation
accepts is laid out with the key that it is told to have, is read back as itself, and is accepted
again unchanged.  Reading back goes through the plain form of the item and validates once more, so
the first thing is to say what validation accepts (`Post.validate_eq_ok_iff`,
`Comment.validate_eq_ok_iff`).
-/

namespace ItemStore

/-- A table with the key reads back what the entity lays out, under the key that the entity tells,
and the draft that is rebuilt from a value stands for the value. -/
structure Entity.Lawful {Draft Out : Type} (e : Entity Draft Out) (schema : KeySchema)
    (redraft : Out → Draft) : Prop where
  laidOut : ∀ {fresh : String} {draft : Draft} {out : Out}, e.validate fresh draft = .ok out →
    ∃ item, e.toItem out = .ok item ∧ (∃ k, schema.extract item = .ok k) ∧
      e.key out = schema.keyOf item ∧ e.parse item = .ok out
  redrafted : ∀ {fresh : String} {draft : Draft} {out : Out}, e.validate fresh draft = .ok out →
    ∀ fresh', e.validate fresh' (redraft out) = .ok out

/-! ## Issues -/

namespace Issues

variable {α : Type} {is : Issues}

theorem isEmpty_require (is : Issues) (field : String) (v : Option α) :
    (is.require field v).isEmpty = (is.isEmpty && v.isSome) := by
  cases v <;> simp [require, missing]

theorem isEmpty_check (is : Issues) (kept : Bool) (field rule message : String) :
    (is.check kept field rule message).isEmpty = (is.isEmpty && kept) := by
  cases kept <;> simp [check, invalid]

theorem finish_eq_ok_iff {v w : α} : is.finish v = .ok w ↔ is.isEmpty = true ∧ v = w := by
  rw [finish]
  split
  next h => simp [h]
  next h => simp [h]

end Issues

namespace Blog

/-- The key of the table that posts and comments share. -/
def tableSchema : KeySchema := ⟨⟨"pk", .string⟩, some ⟨"sk", .string⟩⟩

/-- The key of the index by author. -/
def authorSchema : KeySchema := ⟨⟨"author", .string⟩, some ⟨"sk", .string⟩⟩

/-- The key of the table with these texts. -/
def keyWith (pk sk : String) : PrimaryKey := [("pk", .string pk), ("sk", .string sk)]

theorem ofEntries_key (pk sk : String) :
    NameMap.ofEntries [("pk", Value.string pk), ("sk", Value.string sk)] = keyWith pk sk := by
  have horder : compare "sk" "pk" = .gt := by decide +kernel
  simp [NameMap.ofEntries, NameMap.set, OrderedMap.insert, horder, keyWith]

/-- An item with these texts has the key with them. -/
theorem keyOf_tableSchema {item : Item} {pk sk : String}
    (hpk : NameMap.get? item "pk" = some (.string pk))
    (hsk : NameMap.get? item "sk" = some (.string sk)) :
    tableSchema.keyOf item = keyWith pk sk := by
  rw [← ofEntries_key]
  simp [KeySchema.keyOf, NameMap.restrict, KeySchema.names, tableSchema, hpk, hsk]

theorem extract_tableSchema {item : Item} {pk sk : String}
    (hpk : NameMap.get? item "pk" = some (.string pk))
    (hsk : NameMap.get? item "sk" = some (.string sk)) :
    tableSchema.extract item = .ok (.string pk, .string sk) :=
  KeySchema.extract_eq_ok_iff.mpr
    ⟨KeyAttribute.read_eq_ok_iff.mpr ⟨_, hpk, rfl, rfl⟩,
      KeyAttribute.read_eq_ok_iff.mpr ⟨_, hsk, rfl, rfl⟩⟩

/-! ## Posts -/

namespace Post

/-- What is asked of a post. -/
structure Valid (p : Post) : Prop where
  id : p.id ≠ ""
  notBlank : Text.trim p.title ≠ ""
  short : p.title.length ≤ longestTitle

/-- The draft with everything that a post says. -/
def redraft (p : Post) : PostDraft := ⟨some p.id, some p.title, some p.body⟩

/-- What validation accepts. -/
theorem validate_eq_ok_iff {fresh : String} {d : PostDraft} {p : Post} :
    validate fresh d = .ok p ↔ ∃ title, d.title = some title ∧
      p = ⟨d.id.getD ("post-" ++ fresh), title, d.body.getD ""⟩ ∧ p.Valid := by
  rw [validate, Issues.finish_eq_ok_iff, Issues.isEmpty_check]
  cases htitle : d.title with
  | none => simp [checkTitle, Issues.isEmpty_require]
  | some title =>
      simp only [checkTitle, Issues.isEmpty_check, Issues.isEmpty_require, Option.isSome_some,
        List.isEmpty_nil, Bool.true_and, Bool.and_eq_true, Bool.not_eq_true', decide_eq_true_eq,
        String.isEmpty_eq_false_iff, Option.getD_some, Option.some.injEq, exists_eq_left']
      constructor
      · rintro ⟨⟨⟨hblank, hshort⟩, hid⟩, rfl⟩
        exact ⟨rfl, hid, hblank, hshort⟩
      · rintro ⟨rfl, hid, hblank, hshort⟩
        exact ⟨⟨⟨hblank, hshort⟩, hid⟩, rfl⟩

/-- The item of a post. -/
def toItem (p : Post) : Item :=
  NameMap.ofEntries
    [("pk", .string p.id), ("sk", .string sortKey), ("title", .string p.title),
      ("body", .string p.body)]

theorem toItem_eq (p : Post) :
    p.toItem = [("body", .string p.body), ("pk", .string p.id), ("sk", .string sortKey),
      ("title", .string p.title)] := by
  have hsk : compare "sk" "pk" = .gt := by decide +kernel
  have htitlepk : compare "title" "pk" = .gt := by decide +kernel
  have htitlesk : compare "title" "sk" = .gt := by decide +kernel
  have hbody : compare "body" "pk" = .lt := by decide +kernel
  simp [toItem, NameMap.ofEntries, NameMap.set, OrderedMap.insert, hsk, htitlepk, htitlesk, hbody]

theorem get?_toItem (p : Post) (name : String) :
    NameMap.get? p.toItem name =
      if name = "body" then some (.string p.body) else if name = "title" then some (.string p.title)
      else if name = "sk" then some (.string sortKey) else if name = "pk" then some (.string p.id)
      else none := by
  simp only [toItem, NameMap.ofEntries, List.foldl_cons, List.foldl_nil, NameMap.get?_set]
  rfl

/-- The item is what the record is stored as. -/
theorem ofPlain_record (p : Post) : Item.ofPlain p.record.toJson = .ok p.toItem := by
  simp only [PostRecord.toJson, Item.ofPlain, Value.ofPlainMembers, Value.ofPlain]
  rfl

theorem entity_toItem (p : Post) : entity.toItem p = .ok p.toItem := by
  show (Item.ofPlain p.record.toJson).mapError SchemaViolation.ofCodecError = _
  rw [ofPlain_record]
  rfl

/-- A post that is valid is read back as it is. -/
theorem parse_toItem {p : Post} (h : p.Valid) : parse p.toItem = .ok p := by
  have hrecord : Item.decode PostRecord.ofJson p.toItem = .ok p.record := by
    rw [toItem_eq]
    simp only [Item.decode, Item.toPlain, Value.toPlainEntries, Value.toPlain]
    rfl
  have hvalid : validate "" p.redraft = .ok p := validate_eq_ok_iff.mpr ⟨p.title, rfl, rfl, h⟩
  rw [parse, hrecord]
  exact hvalid

theorem lawful : entity.Lawful tableSchema redraft where
  laidOut := by
    intro fresh draft p hp
    obtain ⟨title, -, -, hvalid⟩ := validate_eq_ok_iff.mp hp
    have hpk : NameMap.get? p.toItem "pk" = some (.string p.id) := get?_toItem p "pk"
    have hsk : NameMap.get? p.toItem "sk" = some (.string sortKey) := get?_toItem p "sk"
    refine ⟨p.toItem, p.entity_toItem, ⟨_, extract_tableSchema hpk hsk⟩, ?_, parse_toItem hvalid⟩
    exact (ofEntries_key p.id sortKey).trans (keyOf_tableSchema hpk hsk).symm
  redrafted := by
    intro fresh draft p hp fresh'
    obtain ⟨title, -, -, hvalid⟩ := validate_eq_ok_iff.mp hp
    exact validate_eq_ok_iff.mpr ⟨p.title, rfl, rfl, hvalid⟩

end Post

/-! ## Comments -/

namespace Comment

/-- What is asked of a comment. -/
def Valid (c : Comment) : Prop := '#' ∉ c.author.toList

/-- The draft with everything that a comment says. -/
def redraft (c : Comment) : CommentDraft := ⟨some c.postId, some c.id, some c.author, some c.body⟩

/-- What validation accepts. -/
theorem validate_eq_ok_iff {fresh : String} {d : CommentDraft} {c : Comment} :
    validate fresh d = .ok c ↔ ∃ postId author body, d.postId = some postId ∧
      d.author = some author ∧ d.body = some body ∧
      c = ⟨postId, d.id.getD ("c-" ++ fresh), author, body⟩ ∧ c.Valid := by
  rw [validate, Issues.finish_eq_ok_iff, Issues.isEmpty_check, Issues.isEmpty_require,
    Issues.isEmpty_require, Issues.isEmpty_require]
  simp only [List.isEmpty_nil, Bool.true_and, Bool.and_eq_true, Option.isSome_iff_exists,
    Bool.not_eq_true', List.contains_eq_mem, decide_eq_false_iff_not]
  constructor
  · rintro ⟨⟨⟨⟨⟨postId, hpost⟩, author, hauthor⟩, body, hbody⟩, hpattern⟩, rfl⟩
    refine ⟨postId, author, body, hpost, hauthor, hbody, ?_, hpattern⟩
    rw [hpost, hauthor, hbody]
    rfl
  · rintro ⟨postId, author, body, hpost, hauthor, hbody, rfl, hvalid⟩
    rw [hpost, hauthor, hbody]
    exact ⟨⟨⟨⟨⟨postId, rfl⟩, author, rfl⟩, body, rfl⟩, hvalid⟩, rfl⟩

/-- The item of a comment. -/
def toItem (c : Comment) : Item :=
  NameMap.ofEntries
    [("pk", .string c.postId), ("sk", .string (sortPrefix ++ c.id)), ("author", .string c.author),
      ("body", .string c.body)]

theorem toItem_eq (c : Comment) :
    c.toItem = [("author", .string c.author), ("body", .string c.body), ("pk", .string c.postId),
      ("sk", .string (sortPrefix ++ c.id))] := by
  have hsk : compare "sk" "pk" = .gt := by decide +kernel
  have hauthor : compare "author" "pk" = .lt := by decide +kernel
  have hbodyauthor : compare "body" "author" = .gt := by decide +kernel
  have hbodypk : compare "body" "pk" = .lt := by decide +kernel
  simp [toItem, NameMap.ofEntries, NameMap.set, OrderedMap.insert, hsk, hauthor, hbodyauthor,
    hbodypk]

theorem get?_toItem (c : Comment) (name : String) :
    NameMap.get? c.toItem name =
      if name = "body" then some (.string c.body)
      else if name = "author" then some (.string c.author)
      else if name = "sk" then some (.string (sortPrefix ++ c.id))
      else if name = "pk" then some (.string c.postId) else none := by
  simp only [toItem, NameMap.ofEntries, List.foldl_cons, List.foldl_nil, NameMap.get?_set]
  rfl

/-- The item is what the record is stored as. -/
theorem ofPlain_record (c : Comment) : Item.ofPlain c.record.toJson = .ok c.toItem := by
  simp only [CommentRecord.toJson, Item.ofPlain, Value.ofPlainMembers, Value.ofPlain]
  rfl

theorem entity_toItem (c : Comment) : entity.toItem c = .ok c.toItem := by
  show (Item.ofPlain c.record.toJson).mapError SchemaViolation.ofCodecError = _
  rw [ofPlain_record]
  rfl

/-- The identifier is what follows the prefix, whatever the identifier is. -/
theorem idOfSortKey?_append (id : String) : idOfSortKey? (sortPrefix ++ id) = some id := by
  have hprefix : sortPrefix.toList.isPrefixOf (sortPrefix ++ id).toList = true := by
    rw [String.toList_append]
    exact List.isPrefixOf_iff_prefix.mpr (List.prefix_append _ _)
  rw [idOfSortKey?, if_pos hprefix, String.toList_append, ← String.length_toList,
    List.drop_left, String.ofList_toList]

/-- A comment that is valid is read back as it is. -/
theorem parse_toItem {c : Comment} (h : c.Valid) : parse c.toItem = .ok c := by
  have hrecord : Item.decode CommentRecord.ofJson c.toItem = .ok c.record := by
    rw [toItem_eq]
    simp only [Item.decode, Item.toPlain, Value.toPlainEntries, Value.toPlain]
    rfl
  have hvalid : validate "" c.redraft = .ok c :=
    validate_eq_ok_iff.mpr ⟨c.postId, c.author, c.body, rfl, rfl, rfl, rfl, h⟩
  simp only [parse, hrecord, record, bind, Except.bind, Except.mapError, idOfSortKey?_append]
  exact hvalid

theorem lawful : entity.Lawful tableSchema redraft where
  laidOut := by
    intro fresh draft c hc
    obtain ⟨postId, author, body, -, -, -, -, hvalid⟩ := validate_eq_ok_iff.mp hc
    have hpk : NameMap.get? c.toItem "pk" = some (.string c.postId) := get?_toItem c "pk"
    have hsk : NameMap.get? c.toItem "sk" = some (.string (sortPrefix ++ c.id)) :=
      get?_toItem c "sk"
    refine ⟨c.toItem, c.entity_toItem, ⟨_, extract_tableSchema hpk hsk⟩, ?_, parse_toItem hvalid⟩
    exact (ofEntries_key c.postId (sortPrefix ++ c.id)).trans (keyOf_tableSchema hpk hsk).symm
  redrafted := by
    intro fresh draft c hc fresh'
    obtain ⟨postId, author, body, -, -, -, -, hvalid⟩ := validate_eq_ok_iff.mp hc
    exact validate_eq_ok_iff.mpr ⟨c.postId, c.author, c.body, rfl, rfl, rfl, rfl, hvalid⟩

end Comment

end Blog

end ItemStore
