import ItemStore.Value

/-!
# Requests and responses

What a store is asked and what it answers. A table is created with a key of one or two
attributes, whose types are declared, and with indexes that lay the same items out under other
keys. Items are put and read one at a time by their full key, or read page by page: a query
reads the items that match a key condition, a scan reads all.
-/

namespace ItemStore

/-- The part that an attribute plays in a key. -/
inductive KeyRole where
  | partition
  | sort
deriving DecidableEq, Repr

/-- The types that a key attribute may have. -/
inductive ScalarType where
  | string
  | number
  | binary
deriving DecidableEq, Repr

namespace KeyRole

/-- The name of the role in exchanged data. -/
def text : KeyRole → String
  | partition => "HASH"
  | sort => "RANGE"

end KeyRole

namespace ScalarType

/-- The kind of the values of this type. -/
def kind : ScalarType → Kind
  | string => .string
  | number => .number
  | binary => .binary

/-- The name of the type in exchanged data. -/
def text (t : ScalarType) : String := t.kind.tag

end ScalarType

/-- An attribute with its role in a key. -/
structure KeyElement where
  name : String
  role : KeyRole
deriving DecidableEq, Repr

/-- The declared type of a key attribute. -/
structure AttributeDefinition where
  name : String
  type : ScalarType
deriving DecidableEq, Repr

/-- An index to create with a table. -/
structure IndexDefinition where
  index : String
  key : List KeyElement
deriving DecidableEq, Repr

/-- Create a table. -/
structure CreateTable where
  table : String
  key : List KeyElement
  definitions : List AttributeDefinition
  indexes : List IndexDefinition
deriving DecidableEq, Repr

/-- Put an item, replacing the item with the same key. -/
structure PutItem where
  table : String
  item : Item
deriving DecidableEq

/-- Read the item with a key. -/
structure GetItem where
  table : String
  key : Item
  consistentRead : Option Bool
deriving DecidableEq

/-- Read one page of the items that match a key condition. -/
structure Query where
  table : String
  index : Option String
  keyCondition : String
  /-- A condition on the matched items, applied after the page has been cut. -/
  filter : Option String
  /-- The values of the parameters in both conditions. -/
  values : NameMap Value
  /-- Ascending order of the sort key, which is the default, or descending order. -/
  forward : Option Bool
  /-- The most items to evaluate for the page. -/
  limit : Option Int
  /-- The key of the last item of the page before; empty for the first page. -/
  startKey : Item
  consistentRead : Option Bool
deriving DecidableEq

/-- Read one page of all items. -/
structure Scan where
  table : String
  index : Option String
  filter : Option String
  values : NameMap Value
  limit : Option Int
  startKey : Item
  consistentRead : Option Bool
deriving DecidableEq

/-- The answer to a creation. -/
structure TableCreated where
  table : String
deriving DecidableEq, Repr

/-- The answer to a put: nothing beyond success. -/
structure ItemPut where
deriving DecidableEq, Repr

/-- The answer to a read: the item, if there is one. -/
structure ItemRead where
  item : Option Item
deriving DecidableEq

/-- The answer to a query or a scan. -/
structure PageRead where
  /-- The items of the page that passed the filter. -/
  items : List Item
  count : Int
  /-- The number of items of the page before the filter. -/
  scannedCount : Int
  /-- The key of the page's last item, set when more items may follow. -/
  lastKey : Option Item
deriving DecidableEq

end ItemStore
