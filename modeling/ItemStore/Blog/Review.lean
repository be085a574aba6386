import ItemStore.Decode.Record
import ItemStore.Value.Codec

/-!
# Reviews

A review is a record with a field of every plain type: texts, a count, a score, a switch, a list
and a text that may be null. It is read from its item field by field and written back the same
way.
-/

namespace ItemStore.Blog

open Decode (Field Members)

/-- A rated comment on a post. -/
structure Review where
  pk : String
  sk : String
  likes : Nat
  score : Binary64
  pinned : Bool
  tags : List String
  /-- The comment that this one answers. -/
  replyTo : Option String
deriving DecidableEq

namespace Review

def fields : List Field :=
  [.required "pk" Decoder.string, .required "sk" Decoder.string,
    .required "likes" Decoder.nat32, .required "score" Decoder.double,
    .required "pinned" Decoder.bool, .required "tags" (Decoder.list Decoder.string),
    .nullable "reply_to" Decoder.string]

def ofJson : Decoder Review := fun j => do
  let ms ← Members.read "Review" fields j
  let pk ← ms.required "pk" Decoder.string
  let sk ← ms.required "sk" Decoder.string
  let likes ← ms.required "likes" Decoder.nat32
  let score ← ms.required "score" Decoder.double
  let pinned ← ms.required "pinned" Decoder.bool
  let tags ← ms.required "tags" (Decoder.list Decoder.string)
  let replyTo ← ms.nullable "reply_to" Decoder.string
  .ok ⟨pk, sk, likes, score, pinned, tags, replyTo⟩

def toJson (r : Review) : Json :=
  .object [("pk", .string r.pk), ("sk", .string r.sk), ("likes", .int r.likes),
    ("score", .number (.double r.score)), ("pinned", .bool r.pinned),
    ("tags", .array (r.tags.map .string)),
    ("reply_to", (r.replyTo.map Json.string).getD .null)]

/-- Read a review from its item. -/
def ofItem (item : Item) : Except CodecError Review := Item.decode ofJson item

/-- The item of a review. -/
def toItem (r : Review) : Except CodecError Item := Item.ofPlain r.toJson

end Review

end ItemStore.Blog
