import ItemStore.Decode.Record
import ItemStore.Repository

/-!
# Comments

A comment belongs to a post and is kept in the partition of the post. Its sort key is a fixed
prefix followed by the identifier of the comment, so that one query by prefix reads all comments
on a post. An index by author has the comments of one author together.
-/

namespace ItemStore.Blog

open Decode (Field Members)

/-- A comment as submitted. -/
structure CommentDraft where
  postId : Option String
  /-- Made up when absent. -/
  id : Option String
  author : Option String
  body : Option String
deriving DecidableEq, Repr

/-- A validated comment. -/
structure Comment where
  postId : String
  id : String
  author : String
  body : String
deriving DecidableEq, Repr

/-- A comment as its item holds it. -/
structure CommentRecord where
  pk : String
  sk : String
  author : String
  body : String
deriving DecidableEq, Repr

namespace CommentDraft

def fields : List Field :=
  [.nullable "post_id" Decoder.string, .nullable "id" Decoder.string,
    .nullable "author" Decoder.string, .nullable "body" Decoder.string]

def ofJson : Decoder CommentDraft := fun j => do
  let ms ← Members.read "CommentDraft" fields j
  let postId ← ms.nullable "post_id" Decoder.string
  let id ← ms.nullable "id" Decoder.string
  let author ← ms.nullable "author" Decoder.string
  let body ← ms.nullable "body" Decoder.string
  .ok ⟨postId, id, author, body⟩

end CommentDraft

namespace CommentRecord

def fields : List Field :=
  [.required "pk" Decoder.string, .required "sk" Decoder.string,
    .required "author" Decoder.string, .required "body" Decoder.string]

def ofJson : Decoder CommentRecord := fun j => do
  let ms ← Members.read "CommentRecord" fields j
  let pk ← ms.required "pk" Decoder.string
  let sk ← ms.required "sk" Decoder.string
  let author ← ms.required "author" Decoder.string
  let body ← ms.required "body" Decoder.string
  .ok ⟨pk, sk, author, body⟩

/-- The plain form of a record. -/
def toJson (r : CommentRecord) : Json :=
  .object [("pk", .string r.pk), ("sk", .string r.sk), ("author", .string r.author),
    ("body", .string r.body)]

end CommentRecord

namespace Comment

/-- What the sort key of every comment starts with. -/
def sortPrefix : String := "comment#"

/-- The index that has the comments of one author together. -/
def authorIndex : String := "by-author"

/-- Validate a draft; a comment without an identifier gets one from the fresh text. -/
def validate (fresh : String) (d : CommentDraft) : Except SchemaViolation Comment :=
  let author := d.author.getD ""
  let is := ((Issues.require [] "post_id" d.postId).require "author" d.author).require "body" d.body
  let is := is.check (!author.toList.contains '#') "author" "pattern" "must not contain '#'"
  is.finish ⟨d.postId.getD "", d.id.getD ("c-" ++ fresh), author, d.body.getD ""⟩

/-- The identifier in the sort key of a comment. -/
def idOfSortKey? (sk : String) : Option String :=
  if sortPrefix.toList.isPrefixOf sk.toList then
    some (String.ofList (sk.toList.drop sortPrefix.length))
  else none

/-- Read a comment from an item and validate it. -/
def parse (item : Item) : Except SchemaViolation Comment := do
  let record ← (Item.decode CommentRecord.ofJson item).mapError SchemaViolation.ofCodecError
  match idOfSortKey? record.sk with
  | none =>
      .error (.invalid "sk" "prefix"
        ("expected " ++ Text.quoted sortPrefix ++ " prefix, found " ++ Text.quoted record.sk))
  | some id => validate "" ⟨some record.pk, some id, some record.author, some record.body⟩

/-- The record of a comment. -/
def record (c : Comment) : CommentRecord := ⟨c.postId, sortPrefix ++ c.id, c.author, c.body⟩

/-- The key of the comment with an identifier on a post. -/
def keyOf (postId id : String) : PrimaryKey :=
  NameMap.ofEntries [("pk", .string postId), ("sk", .string (sortPrefix ++ id))]

/-- Comments as entities. -/
def entity : Entity CommentDraft Comment where
  validate := validate
  parse := parse
  toItem c := (Item.ofPlain c.record.toJson).mapError SchemaViolation.ofCodecError
  key c := keyOf c.postId c.id

/-- The criteria for the comments whose named attribute has a value. -/
def criteria (name value : String) : Criteria :=
  Criteria.ofEntries
    [(name, .equals (.string value)), ("sk", .beginsWith (.string sortPrefix))]

/-- All comments on a post, in the order of their identifiers. -/
def ofPost (r : Repository CommentDraft Comment) (postId : String) (o : QueryOptions) : Listing :=
  r.query (criteria "pk" postId) o

/-- All comments by an author. -/
def byAuthor (r : Repository CommentDraft Comment) (author : String) : Listing :=
  r.query (criteria "author" author) { index := some authorIndex }

/-- The plain form of a comment. -/
def toJson (c : Comment) : Json :=
  .object [("post_id", .string c.postId), ("id", .string c.id), ("author", .string c.author),
    ("body", .string c.body)]

end Comment

end ItemStore.Blog
