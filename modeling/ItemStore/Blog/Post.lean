import ItemStore.Decode.Record
import ItemStore.Entity
import ItemStore.Text.Blank

/-!
# Posts

A post has an identifier, a title and a body. It is kept under its identifier as the partition
and a fixed sort key, so that a partition holds one post beside the comments on it. The title
must not be blank and has a greatest length; an absent body is empty.
-/

namespace ItemStore.Blog

open Decode (Field Members)

/-- A post as submitted. -/
structure PostDraft where
  /-- Made up when absent. -/
  id : Option String
  title : Option String
  body : Option String
deriving DecidableEq, Repr

/-- A validated post. -/
structure Post where
  id : String
  title : String
  body : String
deriving DecidableEq, Repr

/-- A post as its item holds it. -/
structure PostRecord where
  pk : String
  sk : String
  title : String
  body : String
deriving DecidableEq, Repr

namespace PostDraft

def fields : List Field :=
  [.nullable "id" Decoder.string, .nullable "title" Decoder.string,
    .nullable "body" Decoder.string]

def ofJson : Decoder PostDraft := fun j => do
  let ms ← Members.read "PostDraft" fields j
  let id ← ms.nullable "id" Decoder.string
  let title ← ms.nullable "title" Decoder.string
  let body ← ms.nullable "body" Decoder.string
  .ok ⟨id, title, body⟩

end PostDraft

namespace PostRecord

def fields : List Field :=
  [.required "pk" Decoder.string, .required "sk" Decoder.string,
    .required "title" Decoder.string, .defaulted "body" Decoder.string]

def ofJson : Decoder PostRecord := fun j => do
  let ms ← Members.read "PostRecord" fields j
  let pk ← ms.required "pk" Decoder.string
  let sk ← ms.required "sk" Decoder.string
  let title ← ms.required "title" Decoder.string
  let body ← ms.defaulted "body" "" Decoder.string
  .ok ⟨pk, sk, title, body⟩

/-- The plain form of a record. -/
def toJson (r : PostRecord) : Json :=
  .object [("pk", .string r.pk), ("sk", .string r.sk), ("title", .string r.title),
    ("body", .string r.body)]

end PostRecord

namespace Post

/-- The sort key of every post. -/
def sortKey : String := "post"

/-- The greatest length of a title. -/
def longestTitle : Nat := 200

/-- Note what is wrong with a title that is there. -/
def checkTitle (is : Issues) (title : Option String) : Issues :=
  match title with
  | none => is
  | some t =>
      (is.check (!(Text.trim t).isEmpty) "title" "min_length" "must not be blank").check
        (decide (t.length ≤ longestTitle)) "title" "max_length"
        ("must be at most " ++ toString longestTitle ++ " characters")

/-- Validate a draft; a post without an identifier gets one from the fresh text. -/
def validate (fresh : String) (d : PostDraft) : Except SchemaViolation Post :=
  let id := d.id.getD ("post-" ++ fresh)
  let is := checkTitle (Issues.require [] "title" d.title) d.title
  let is := is.check (!id.isEmpty) "id" "min_length" "must not be empty"
  is.finish ⟨id, d.title.getD "", d.body.getD ""⟩

/-- Read a post from an item and validate it. -/
def parse (item : Item) : Except SchemaViolation Post := do
  let record ← (Item.decode PostRecord.ofJson item).mapError SchemaViolation.ofCodecError
  if record.sk ≠ sortKey then
    .error (.invalid "sk" "const"
      ("expected " ++ Text.quoted sortKey ++ ", found " ++ Text.quoted record.sk))
  else validate "" ⟨some record.pk, some record.title, some record.body⟩

/-- The record of a post. -/
def record (p : Post) : PostRecord := ⟨p.id, sortKey, p.title, p.body⟩

/-- The key of the post with an identifier. -/
def keyOf (id : String) : PrimaryKey :=
  NameMap.ofEntries [("pk", .string id), ("sk", .string sortKey)]

/-- Posts as entities. -/
def entity : Entity PostDraft Post where
  validate := validate
  parse := parse
  toItem p := (Item.ofPlain p.record.toJson).mapError SchemaViolation.ofCodecError
  key p := keyOf p.id

/-- The plain form of a post. -/
def toJson (p : Post) : Json :=
  .object [("id", .string p.id), ("title", .string p.title), ("body", .string p.body)]

end Post

end ItemStore.Blog
