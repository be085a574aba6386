import ItemStore.Value.Codec

/-!
# Validation

A validation collects issues, each a rule that some field breaks, and fails with all of them
together. A failure to read an item is an issue too: an absent field that a record requires
counts as a missing field, and everything else as an issue of the whole item.
-/

namespace ItemStore

/-- A rule that a field breaks; the field is empty when the value as a whole breaks it. -/
structure Issue where
  field : String
  rule : String
  message : String
deriving DecidableEq, Repr

namespace Issue

/-- How an issue is shown inside a message. -/
def display (i : Issue) : String :=
  if i.field.isEmpty then i.message ++ " (" ++ i.rule ++ ")"
  else i.field ++ ": " ++ i.message ++ " (" ++ i.rule ++ ")"

/-- A field that must be there and is not. -/
def missing (field : String) : Issue := ⟨field, "required", "field is required"⟩

end Issue

/-- A failed validation: the issues in the order in which they were found. -/
structure SchemaViolation where
  issues : List Issue
deriving DecidableEq, Repr

namespace SchemaViolation

def message (v : SchemaViolation) : String :=
  "schema validation failed: " ++ "; ".intercalate (v.issues.map Issue.display)

/-- The violation that one field is missing. -/
def missingField (field : String) : SchemaViolation := ⟨[Issue.missing field]⟩

/-- The violation of one rule. -/
def invalid (field rule message : String) : SchemaViolation := ⟨[⟨field, rule, message⟩]⟩

/-- Whether an issue concerns the field. -/
def hasField (v : SchemaViolation) (field : String) : Bool :=
  v.issues.any fun i => i.field == field

/-- What follows the first occurrence of a mark. -/
def afterMark? (mark : List Char) : List Char → Option (List Char)
  | [] => if mark.isEmpty then some [] else none
  | c :: cs =>
      if mark.isPrefixOf (c :: cs) then some ((c :: cs).drop mark.length) else afterMark? mark cs

/-- The field that a message reports as missing: the text between the first `missing field` with
a backtick and the next backtick. -/
def reportedMissing? (message : String) : Option String :=
  (afterMark? "missing field `".toList message.toList).bind fun rest =>
    if rest.contains '\x60' then some (String.ofList (rest.takeWhile (· != '\x60'))) else none

/-- The violation that a failure to read or write an item amounts to. -/
def ofCodecError (e : CodecError) : SchemaViolation :=
  match reportedMissing? e.message with
  | some field => missingField field
  | none => invalid "" "decode" e.message

end SchemaViolation

/-- Issues found so far. -/
abbrev Issues := List Issue

namespace Issues

/-- Note that a field is missing. -/
def missing (is : Issues) (field : String) : Issues := is ++ [Issue.missing field]

/-- Note that a field breaks a rule. -/
def invalid (is : Issues) (field rule message : String) : Issues := is ++ [⟨field, rule, message⟩]

/-- Note that a field is missing unless it has a value. -/
def require {α : Type} (is : Issues) (field : String) (v : Option α) : Issues :=
  if v.isNone then is.missing field else is

/-- Note that a field breaks a rule unless it is kept. -/
def check (is : Issues) (kept : Bool) (field rule message : String) : Issues :=
  if kept then is else is.invalid field rule message

/-- The value, provided that there are no issues. -/
def finish {α : Type} (is : Issues) (v : α) : Except SchemaViolation α :=
  if is.isEmpty then .ok v else .error ⟨is⟩

end Issues

end ItemStore
