import ItemStore.Decode.Text
import ItemStore.Value

/-!
# Tagged values

Attribute values are exchanged as JSON objects with one member, whose name is the tag of the
kind and whose value is the payload: text for strings and numbers, base64 text for binary data.
Nothing else is read: an object without a tag, with two tags or with an unknown tag is refused,
and so is a payload of another kind, at any depth. A tagged value is read from the tree of a
text; one that is given as a value is read from the tree of that value.
-/

namespace ItemStore.Value

/-- What a message calls a tagged value. -/
def wireShape : String := "an attribute value object with a single type tag"

/-- A byte string in its base64 form. -/
def binaryOfText (s : String) : Except DecodeError (List UInt8) :=
  match Base64.decode s with
  | .ok bytes => .ok bytes
  | .error e => .error (.base64 e)

/-- Byte strings in their base64 forms. -/
def binariesOfTexts : List String → Except DecodeError (List (List UInt8))
  | [] => .ok []
  | s :: ss => do
      let b ← binaryOfText s
      let bs ← binariesOfTexts ss
      .ok (b :: bs)

/-- The container that the payload of a kind is, and `none` for scalars. -/
def payloadContainer? : Kind → Option Json.Container
  | .list | .stringSet | .numberSet | .binarySet => some .array
  | .map => some .object
  | .string | .number | .binary | .bool | .null => none

/-- What a message calls the payload of a kind. -/
def payloadShape : Kind → String
  | .list | .stringSet | .numberSet | .binarySet => "a sequence"
  | .map => "a map"
  | .string | .number | .binary => "a string"
  | .bool | .null => "a boolean"

mutual

/-- Read a tagged value from the tree of a text. -/
def ofSource : Json.Source → Except DecodeError Value
  | .object [] => .error .missingTag
  | .object ((tag, payload) :: more) => do
      let tag ← TextDecoder.sound tag
      match Kind.ofTag? tag with
      | none => .error (.unknownField tag (Kind.all.map Kind.tag))
      | some k => do
          let v ← ofPayload k payload
          match more with
          | [] => .ok v
          | (second, _) :: _ => do
              let _ ← TextDecoder.sound second
              .error .secondTag
  | .tooDeep .object => .error (.flaw .depth)
  | j => TextDecoder.mismatch wireShape j

/-- Read the payload of a kind. -/
def ofPayload (k : Kind) : Json.Source → Except DecodeError Value
  | .string s =>
      match k with
      | .string => .ok (string s)
      | .number => .ok (number s)
      | .binary => (binaryOfText s).map binary
      | _ => TextDecoder.mismatch (payloadShape k) (.string s)
  | .bool b =>
      match k with
      | .bool => .ok (bool b)
      | .null => .ok (null b)
      | _ => TextDecoder.mismatch (payloadShape k) (.bool b)
  | .array xs =>
      match k with
      | .list => (ofElements xs).map list
      | .stringSet => (TextDecoder.elements TextDecoder.string xs).map stringSet
      | .numberSet => (TextDecoder.elements TextDecoder.string xs).map numberSet
      | .binarySet => do
          let texts ← TextDecoder.elements TextDecoder.string xs
          (binariesOfTexts texts).map binarySet
      | _ => TextDecoder.mismatch (payloadShape k) (.array xs)
  | .object ms =>
      match k with
      | .map => (ofMembers ms).map fun es => map (NameMap.ofEntries es)
      | _ => TextDecoder.mismatch (payloadShape k) (.object ms)
  | .tooDeep c =>
      if payloadContainer? k = some c then .error (.flaw .depth)
      else TextDecoder.mismatch (payloadShape k) (.tooDeep c)
  | j => TextDecoder.mismatch (payloadShape k) j

/-- Read the elements of a list in order. -/
def ofElements : List Json.Source → Except DecodeError (List Value)
  | [] => .ok []
  | x :: xs => do
      let v ← ofSource x
      let vs ← ofElements xs
      .ok (v :: vs)

/-- Read the entries of a map in order. -/
def ofMembers :
    List (Except Json.Flaw String × Json.Source) → Except DecodeError (List (String × Value))
  | [] => .ok []
  | (name, x) :: ms => do
      let name ← TextDecoder.sound name
      let v ← ofSource x
      let vs ← ofMembers ms
      .ok ((name, v) :: vs)

end

/-- Read a tagged value. -/
def ofJson : Decoder Value := fun j => ofSource (Json.Source.ofJson j)

/-- Read a tagged value from a text. -/
def ofText : String → Except DecodeError Value := TextDecoder.run ofSource

mutual

/-- The tagged form of a value. -/
def toJson : Value → Json
  | string s => .object [(Kind.string.tag, .string s)]
  | number n => .object [(Kind.number.tag, .string n)]
  | binary b => .object [(Kind.binary.tag, .string (Base64.encode b))]
  | stringSet ms => .object [(Kind.stringSet.tag, .array (ms.map .string))]
  | numberSet ms => .object [(Kind.numberSet.tag, .array (ms.map .string))]
  | binarySet ms =>
      .object [(Kind.binarySet.tag, .array (ms.map fun b => .string (Base64.encode b)))]
  | bool b => .object [(Kind.bool.tag, .bool b)]
  | null b => .object [(Kind.null.tag, .bool b)]
  | list xs => .object [(Kind.list.tag, .array (elementsToJson xs))]
  | map es => .object [(Kind.map.tag, .object (entriesToJson es))]

def elementsToJson : List Value → List Json
  | [] => []
  | x :: xs => toJson x :: elementsToJson xs

def entriesToJson : List (String × Value) → List (String × Json)
  | [] => []
  | (name, x) :: es => (name, toJson x) :: entriesToJson es

end

end ItemStore.Value

namespace ItemStore.Item

/-- Read an item: an object of tagged values. -/
def ofJson : Decoder Item := Decoder.map Value.ofJson

/-- The exchanged form of an item. -/
def toJson (item : Item) : Json := .object (Value.entriesToJson item)

/-- Read a list of items from a text. -/
def listOfText (text : String) : Except DecodeError (List Item) :=
  TextDecoder.run (TextDecoder.list (TextDecoder.map Value.ofSource)) text

end ItemStore.Item
