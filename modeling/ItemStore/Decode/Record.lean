import ItemStore.Decode

/-!
# Records

A record is an object with named fields. Its members are read in the order in which they stand,
so the first member that fails decides; only then does a missing field count, the first one in
the order of declaration. Members that are no field are passed over. A record may also be given
as the array of its fields in order of declaration.
-/

namespace ItemStore.Decode

/-- Whether a field may be left out. -/
inductive Presence where
  /-- The field must be there. -/
  | required
  /-- The field may be left out or null. -/
  | nullable
  /-- The field may be left out, and then has a default. -/
  | defaulted
deriving DecidableEq

/-- A declared field: its name, whether it may be left out, and whether a value suits it. -/
structure Field where
  name : String
  presence : Presence
  check : Json → Except DecodeError Unit

namespace Field

variable {α : Type}

def required (name : String) (d : Decoder α) : Field :=
  ⟨name, .required, fun j => (d j).map fun _ => ()⟩

def nullable (name : String) (d : Decoder α) : Field :=
  ⟨name, .nullable, fun j => (d.nullable j).map fun _ => ()⟩

def defaulted (name : String) (d : Decoder α) : Field :=
  ⟨name, .defaulted, fun j => (d j).map fun _ => ()⟩

end Field

/-- The members of a record, each of which suits its field. -/
abbrev Members := List (String × Json)

namespace Members

variable {α : Type}

/-- Check the members in their order. -/
def check (fields : List Field) : Members → Except DecodeError Unit
  | [] => .ok ()
  | (name, j) :: rest => do
      match fields.find? fun f => f.name == name with
      | some f => f.check j
      | none => .ok ()
      check fields rest

/-- The place of the first field without a default among those left over. -/
def firstUndefaulted : Nat → List Field → Option Nat
  | _, [] => none
  | i, f :: rest => if f.presence = .defaulted then firstUndefaulted (i + 1) rest else some i

/-- How many elements a record written as an array has. -/
def arrayShape (record : String) (count : Nat) : String :=
  "struct " ++ record ++ " with " ++ toString count ++
    (if count = 1 then " element" else " elements")

/-- The members of a record with the given name and fields. -/
def read (record : String) (fields : List Field) : Decoder Members
  | .object ms => do
      check fields ms
      .ok ms
  | .array xs => do
      let ms := (fields.map (·.name)).zip xs
      check fields ms
      match firstUndefaulted xs.length (fields.drop xs.length) with
      | some i => .error (.invalidLength i (arrayShape record fields.length))
      | none =>
          if fields.length < xs.length then
            .error (.invalidLength xs.length "fewer elements in array")
          else .ok ms
  | j => Decoder.mismatch j ("struct " ++ record)

/-- The value of a required field. -/
def required (ms : Members) (name : String) (d : Decoder α) : Except DecodeError α :=
  match Json.member? ms name with
  | none => .error (.missingField name)
  | some j => d j

/-- The value of a field that may be left out or null. -/
def nullable (ms : Members) (name : String) (d : Decoder α) : Except DecodeError (Option α) :=
  match Json.member? ms name with
  | none => .ok none
  | some j => d.nullable j

/-- The value of a field that may be left out. -/
def defaulted (ms : Members) (name : String) (default : α) (d : Decoder α) :
    Except DecodeError α :=
  match Json.member? ms name with
  | none => .ok default
  | some j => d j

end Members

end ItemStore.Decode
