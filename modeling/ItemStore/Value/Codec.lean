import ItemStore.Decode
import ItemStore.Value

/-!
# Plain data and items

Plain JSON data is stored in items: text as strings, numbers by their written form, and so on.
On the way back a stored number becomes an integer if it fits a signed or an unsigned 64-bit
word, and otherwise the nearest double, which must be finite; sets become arrays and binary data
becomes base64 text. Records are read from items through their plain form.
-/

namespace ItemStore

/-- Why data could not be stored in an item or read from one. -/
inductive CodecError where
  /-- A failure with a text of its own, which may end in a position. -/
  | encode (text : String)
  | decode (e : DecodeError)
  /-- Only objects can become items; the kind of what was given is named. -/
  | notObject (kind : String)
  | invalidNumber (text : String)
deriving DecidableEq

namespace CodecError

def message : CodecError → String
  | encode text => "failed to encode value: " ++ Text.positioned text
  | decode e => "failed to decode item: " ++ e.message
  | notObject kind => "expected an object, got " ++ kind
  | invalidNumber text => "stored number " ++ text ++ " is not representable"

end CodecError

namespace Json.Number

/-- The number that a stored number stands for. -/
def ofStored (text : String) : Except CodecError Number :=
  match (Text.IntRange.signed 64).read text with
  | some i => .ok (integer i)
  | none =>
      match (Text.IntRange.unsigned 64).read text with
      | some i => .ok (integer i)
      | none =>
          match Binary64.ofText text with
          | some x => if x.isFinite then .ok (double x) else .error (.invalidNumber text)
          | none => .error (.invalidNumber text)

/-- The numbers that stored numbers stand for, in order. -/
def ofStoredAll : List String → Except CodecError (List Json)
  | [] => .ok []
  | t :: ts => do
      let n ← ofStored t
      let ns ← ofStoredAll ts
      .ok (.number n :: ns)

end Json.Number

namespace Value

mutual

/-- The value that plain data is stored as. -/
def ofPlain : Json → Value
  | .null => null true
  | .bool b => bool b
  | .number n => number n.text
  | .string s => string s
  | .array xs => list (ofPlainElements xs)
  | .object ms => map (NameMap.ofEntries (ofPlainMembers ms))

def ofPlainElements : List Json → List Value
  | [] => []
  | x :: xs => ofPlain x :: ofPlainElements xs

def ofPlainMembers : List (String × Json) → List (String × Value)
  | [] => []
  | (name, x) :: ms => (name, ofPlain x) :: ofPlainMembers ms

end

mutual

/-- The plain data that a value stands for. -/
def toPlain : Value → Except CodecError Json
  | string s => .ok (.string s)
  | number n => (Json.Number.ofStored n).map .number
  | binary b => .ok (.string (Base64.encode b))
  | stringSet ms => .ok (.array (ms.map .string))
  | numberSet ms => (Json.Number.ofStoredAll ms).map .array
  | binarySet ms => .ok (.array (ms.map fun b => .string (Base64.encode b)))
  | bool b => .ok (.bool b)
  | null _ => .ok .null
  | list xs => (toPlainElements xs).map .array
  | map es => (toPlainEntries es).map .object

def toPlainElements : List Value → Except CodecError (List Json)
  | [] => .ok []
  | x :: xs => do
      let v ← toPlain x
      let vs ← toPlainElements xs
      .ok (v :: vs)

def toPlainEntries : List (String × Value) → Except CodecError (List (String × Json))
  | [] => .ok []
  | (name, x) :: es => do
      let v ← toPlain x
      let vs ← toPlainEntries es
      .ok ((name, v) :: vs)

end

end Value

namespace Item

/-- The item that an object is stored as. -/
def ofPlain : Json → Except CodecError Item
  | .object ms => .ok (NameMap.ofEntries (Value.ofPlainMembers ms))
  | j => .error (.notObject j.kind)

/-- The object that an item stands for. -/
def toPlain (item : Item) : Except CodecError Json := (Value.toPlainEntries item).map .object

/-- Read typed data from an item through its plain form. -/
def decode {α : Type} (d : Decoder α) (item : Item) : Except CodecError α := do
  let j ← toPlain item
  (d j).mapError .decode

end Item

end ItemStore
