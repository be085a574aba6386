import ItemStore.Entity

/-!
# Documents

A document is an object of plain data, kept in an item as it is. The rules of a collection say
which members are the key, which members must be there, how long texts may be and what absent
members stand for.
-/

namespace ItemStore

/-- The rules of a collection of documents. -/
structure DocumentRules where
  /-- The members that are the key. -/
  key : List String
  /-- The members that must be there and not be null. -/
  required : List String
  /-- The greatest lengths of members that are texts. -/
  maxLength : NameMap Nat
  /-- What absent members stand for. -/
  defaults : NameMap Json

namespace DocumentRules

/-- Give absent members their defaults. -/
def withDefaults (rules : DocumentRules) (ms : NameMap Json) : NameMap Json :=
  NameMap.union rules.defaults ms

/-- A member that is there and not null. -/
def present? (ms : NameMap Json) (name : String) : Option Json :=
  match NameMap.get? ms name with
  | some .null => none
  | v => v

/-- Whether a member is no text or a text of at most so many characters. -/
def fits (ms : NameMap Json) (name : String) (length : Nat) : Bool :=
  match NameMap.get? ms name with
  | some (.string s) => decide (s.length ≤ length)
  | _ => true

/-- What is wrong with the members: first what is missing, then what is too long. -/
def issues (rules : DocumentRules) (ms : NameMap Json) : Issues :=
  let missing : Issues := rules.required.foldl (fun (is : Issues) name =>
    is.require name (present? ms name)) []
  rules.maxLength.foldl (fun (is : Issues) (name, length) =>
    is.check (fits ms name length) name "max_length"
      ("must be at most " ++ toString length ++ " characters")) missing

/-- Give absent members their defaults, and check the result. -/
def validate (rules : DocumentRules) : Json → Except SchemaViolation Json
  | .object ms =>
      let ms := rules.withDefaults (NameMap.ofEntries ms)
      (rules.issues ms).finish (.object ms)
  | _ => .error (.invalid "" "type" "expected an object")

/-- Read a document from an item and validate it. -/
def parse (rules : DocumentRules) (item : Item) : Except SchemaViolation Json := do
  let j ← (Item.toPlain item).mapError SchemaViolation.ofCodecError
  rules.validate j

/-- The item of a document. -/
def toItem (j : Json) : Except SchemaViolation Item :=
  (Item.ofPlain j).mapError SchemaViolation.ofCodecError

/-- The key of a document; what is no object has no key attributes. -/
def keyOf (rules : DocumentRules) (j : Json) : PrimaryKey :=
  match Item.ofPlain j with
  | .ok item => PrimaryKey.ofItem item rules.key
  | .error _ => []

/-- The documents of a collection as entities. -/
def entity (rules : DocumentRules) : Entity Json Json where
  validate _ j := rules.validate j
  parse := rules.parse
  toItem := toItem
  key := rules.keyOf

end DocumentRules

end ItemStore
