import ItemStore.Condition
import ItemStore.Decimal
import ItemStore.Request

/-!
# Keys

The key of a table or an index names a partition attribute and perhaps a sort attribute, each
with its type. `SortKey` is the value of a key attribute with the order in which items are
read: strings and binary data by bytes, numbers by value. A position is the list of the key
values of an item; positions are compared value by value from the first.
-/

namespace ItemStore

/-- The value of a key attribute, or its absence. -/
inductive SortKey where
  | absent
  | string (s : String)
  | number (text : String)
  | binary (bytes : List UInt8)
deriving DecidableEq

namespace SortKey

/-- The value as a key; values of other types count as absent. -/
def ofValue : Value → SortKey
  | .string s => string s
  | .number n => number n
  | .binary b => binary b
  | _ => absent

/-- The key as a value; absence is the null marker. -/
def toValue : SortKey → Value
  | string s => .string s
  | number n => .number n
  | binary b => .binary b
  | absent => .null true

/-- Keys of different types are ordered by type. -/
def rank : SortKey → Nat
  | absent => 0
  | string _ => 1
  | number _ => 2
  | binary _ => 3

/-- The order of two keys. Texts that are not both numbers are ordered as texts. -/
def compare : SortKey → SortKey → Ordering
  | string a, string b => Ord.compare a b
  | number a, number b => (Decimal.compareTexts a b).getD (Ord.compare a b)
  | binary a, binary b => Ord.compare a b
  | a, b => Ord.compare a.rank b.rank

/-- Whether two keys are equal in their order: numbers by value. -/
def same (a b : SortKey) : Bool := compare a b == .eq

end SortKey

/-- The key values of an item, in the order of comparison. -/
abbrev Position := List SortKey

namespace Position

/-- The order of two positions. -/
def compare (a b : Position) : Ordering := List.compareLex SortKey.compare a b

/-- Whether the first position is not after the second. -/
def le (a b : Position) : Bool := compare a b != .gt

end Position

/-- What a sort key must satisfy. -/
inductive SortCondition where
  | eq (k : SortKey)
  | lt (k : SortKey)
  | le (k : SortKey)
  | gt (k : SortKey)
  | ge (k : SortKey)
  | between (low high : SortKey)
  | beginsWith (k : SortKey)
deriving DecidableEq

namespace SortCondition

/-- Whether a sort key satisfies the condition. Only strings and binary data have beginnings. -/
def holds (c : SortCondition) (key : SortKey) : Bool :=
  match c with
  | eq k => Comparator.eq.holds (key.compare k)
  | lt k => Comparator.lt.holds (key.compare k)
  | le k => Comparator.le.holds (key.compare k)
  | gt k => Comparator.gt.holds (key.compare k)
  | ge k => Comparator.ge.holds (key.compare k)
  | between low high =>
      Comparator.ge.holds (key.compare low) && Comparator.le.holds (key.compare high)
  | beginsWith (.string p) =>
      match key with
      | .string s => p.toList.isPrefixOf s.toList
      | _ => false
  | beginsWith (.binary p) =>
      match key with
      | .binary b => p.isPrefixOf b
      | _ => false
  | beginsWith _ => false

end SortCondition

/-- Why an item has no key. -/
inductive KeyError where
  | missing (name : String)
  | wrongType (name : String) (expected : ScalarType) (actual : Kind)
deriving DecidableEq, Repr

namespace KeyError

def message : KeyError → String
  | missing name => "missing required key attribute: " ++ name
  | wrongType name expected actual =>
      "key attribute '" ++ name ++ "' has wrong type: expected " ++ expected.text ++ ", got " ++
        actual.tag

end KeyError

/-- An attribute of a key. -/
structure KeyAttribute where
  name : String
  type : ScalarType
deriving DecidableEq, Repr

namespace KeyAttribute

/-- The key of a value, which must have the declared type. -/
def check (a : KeyAttribute) (v : Value) : Except KeyError SortKey :=
  match a.type, v with
  | .string, .string s => .ok (.string s)
  | .number, .number n => .ok (.number n)
  | .binary, .binary b => .ok (.binary b)
  | expected, v => .error (.wrongType a.name expected v.kind)

/-- The key that an item has under the attribute. -/
def read (a : KeyAttribute) (item : Item) : Except KeyError SortKey :=
  match NameMap.get? item a.name with
  | none => .error (.missing a.name)
  | some v => a.check v

end KeyAttribute

/-- The key of a table or an index. -/
structure KeySchema where
  partition : KeyAttribute
  sort : Option KeyAttribute
deriving DecidableEq, Repr

namespace KeySchema

/-- The names of the key attributes. -/
def names (s : KeySchema) : List String := s.partition.name :: (s.sort.map (·.name)).toList

/-- The key values of an item: the partition key and the sort key. -/
def extract (s : KeySchema) (item : Item) : Except KeyError (SortKey × SortKey) := do
  let pk ← s.partition.read item
  let sk ← match s.sort with
    | some a => a.read item
    | none => .ok .absent
  .ok (pk, sk)

/-- The key values of an item as a position. -/
def position (s : KeySchema) (item : Item) : Except KeyError Position := do
  let (pk, sk) ← s.extract item
  .ok [pk, sk]

/-- The key attributes of an item, without the rest of it. -/
def keyOf (s : KeySchema) (item : Item) : Item := NameMap.restrict item s.names

end KeySchema

end ItemStore
