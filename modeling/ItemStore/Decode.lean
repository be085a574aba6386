import ItemStore.Base64
import ItemStore.Json.Reader
import ItemStore.Text.Integer
import ItemStore.Text.Position
import ItemStore.Text.Quoted

/-!
# Reading typed data from JSON

A reader turns a JSON value into typed data or fails with a `DecodeError`, which says what was
found and what would have been right. Containers are read from their first part to their last,
and the first part that fails decides.
-/

namespace ItemStore

/-- What was found where something else was expected. -/
inductive Found where
  | null
  | bool (b : Bool)
  | number (n : Json.Number)
  | string (s : String)
  | sequence
  | map
deriving DecidableEq

namespace Found

def text : Found → String
  | null => "null"
  | bool b => if b then "boolean `true`" else "boolean `false`"
  | number (.integer i) => "integer `" ++ toString i ++ "`"
  | number (.double x) => "floating point `" ++ x.text Binary64.exchange ++ "`"
  | string s => "string " ++ Text.quoted s
  | sequence => "sequence"
  | map => "map"

end Found

/-- What a JSON value is, as far as a message tells it. -/
def Json.found : Json → Found
  | .null => .null
  | .bool b => .bool b
  | .number n => .number n
  | .string s => .string s
  | .array _ => .sequence
  | .object _ => .map

/-- Why data could not be read. -/
inductive DecodeError where
  /-- The text is no JSON text. -/
  | malformed
  /-- A part of the text has no value. -/
  | flaw (f : Json.Flaw)
  | invalidType (found : Found) (expected : String)
  | invalidValue (found : Found) (expected : String)
  | invalidLength (length : Nat) (expected : String)
  | missingField (name : String)
  | unknownField (name : String) (known : List String)
  | unknownVariant (name : String) (known : List String)
  /-- A tagged value without a tag. -/
  | missingTag
  /-- A tagged value with a second tag. -/
  | secondTag
  | base64 (e : Base64.Error)
  /-- A failure with a text of its own, which may end in a position. -/
  | other (text : String)
deriving DecidableEq

namespace DecodeError

/-- Names to choose from, in backticks. -/
def choice (names : List String) : String :=
  let marked := names.map fun n => "`" ++ n ++ "`"
  match marked with
  | [a] => a
  | [a, b] => a ++ " or " ++ b
  | _ => "one of " ++ ", ".intercalate marked

def message : DecodeError → String
  | malformed => "<malformed JSON>"
  | flaw f => f.message
  | invalidType found expected => "invalid type: " ++ found.text ++ ", expected " ++ expected
  | invalidValue found expected => "invalid value: " ++ found.text ++ ", expected " ++ expected
  | invalidLength n expected => "invalid length " ++ toString n ++ ", expected " ++ expected
  | missingField name => "missing field `" ++ name ++ "`"
  | unknownField name known => "unknown field `" ++ name ++ "`, expected " ++ choice known
  | unknownVariant name known => "unknown variant `" ++ name ++ "`, expected " ++ choice known
  | missingTag => "attribute value has no type tag"
  | secondTag => "attribute value must have exactly one type tag"
  | base64 e => e.message
  | other text => Text.positioned text

end DecodeError

/-- A reader of typed data. -/
abbrev Decoder (α : Type) := Json → Except DecodeError α

namespace Decoder

variable {α : Type}

/-- Fail because another type was expected. -/
def mismatch (j : Json) (expected : String) : Except DecodeError α :=
  .error (.invalidType j.found expected)

def string : Decoder String
  | .string s => .ok s
  | j => mismatch j "a string"

def bool : Decoder Bool
  | .bool b => .ok b
  | j => mismatch j "a boolean"

/-- An integer of a range, which a message calls by the given name. -/
def int (range : Text.IntRange) (name : String) : Decoder Int
  | .number (.integer i) =>
      if range.holds i then .ok i else .error (.invalidValue (.number (.integer i)) name)
  | j => mismatch j name

/-- A signed 32-bit integer. -/
def int32 : Decoder Int := int (.signed 32) "i32"

/-- An unsigned 32-bit integer. -/
def nat32 : Decoder Nat := fun j => (int (.unsigned 32) "u32" j).map Int.toNat

/-- A double; an integer stands for the double nearest to it. -/
def double : Decoder Binary64
  | .number (.double x) => .ok x
  | .number (.integer i) => .ok (Binary64.nearest (decide (i < 0)) i.natAbs 1)
  | j => mismatch j "f64"

/-- A value that may be null. -/
def nullable (d : Decoder α) : Decoder (Option α)
  | .null => .ok none
  | j => (d j).map some

/-- Read all elements in order. -/
def elements (d : Decoder α) : List Json → Except DecodeError (List α)
  | [] => .ok []
  | x :: xs => do
      let v ← d x
      let vs ← elements d xs
      .ok (v :: vs)

def list (d : Decoder α) : Decoder (List α)
  | .array xs => elements d xs
  | j => mismatch j "a sequence"

/-- Read all members in order; of two members with one name the later one counts. -/
def entries (d : Decoder α) : List (String × Json) → Except DecodeError (List (String × α))
  | [] => .ok []
  | (name, x) :: ms => do
      let v ← d x
      let vs ← entries d ms
      .ok ((name, v) :: vs)

def map (d : Decoder α) : Decoder (NameMap α)
  | .object ms => (entries d ms).map NameMap.ofEntries
  | j => mismatch j "a map"

/-- One of the given names. The name may also stand as the only member of an object, over
null. -/
def variant (known : List (String × α)) : Decoder α :=
  let pick (name : String) : Except DecodeError α :=
    match known.find? fun k => k.1 == name with
    | some k => .ok k.2
    | none => .error (.unknownVariant name (known.map (·.1)))
  fun
  | .string s => pick s
  | .object [(name, payload)] => do
      let v ← pick name
      match payload with
      | .null => .ok v
      | j => mismatch j "unit"
  | .object _ => .error (.invalidValue .map "map with a single key")
  | j => mismatch j "string or map"

end Decoder

end ItemStore
