import ItemStore.Value

/-!
# Primary keys

The primary key of an item is the map of its key attributes: the partition attribute and, where
the table has one, the sort attribute.
-/

namespace ItemStore

/-- The key attributes of an item. -/
abbrev PrimaryKey := NameMap Value

namespace PrimaryKey

/-- The named attributes of an item; names that it lacks are left out. -/
def ofItem (item : Item) (names : List String) : PrimaryKey := NameMap.restrict item names

/-- How a key is shown inside a message: the attributes in name order. -/
def display (key : PrimaryKey) : String :=
  ", ".intercalate (key.map fun e => e.1 ++ "=" ++ e.2.display)

end PrimaryKey

end ItemStore
