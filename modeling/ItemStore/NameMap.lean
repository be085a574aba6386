import ItemStore.OrderedMap

/-!
# Maps from names

Items, parameter bindings, tables and indexes are finite maps from names, kept in increasing
order of the names. Names are ordered by their code points, which is also the order of their
UTF-8 bytes.
-/

namespace ItemStore

/-- A finite map from names, as its entries in increasing order of the names. -/
abbrev NameMap (α : Type) := List (String × α)

namespace NameMap

variable {α : Type}

/-- The value under a name. -/
def get? (m : NameMap α) (name : String) : Option α := OrderedMap.find? compare name m

/-- The map with a value put under a name. -/
def set (m : NameMap α) (name : String) (v : α) : NameMap α := OrderedMap.insert compare name v m

/-- The map of some entries, of which a later one replaces an earlier one of its name. -/
def ofEntries (entries : List (String × α)) : NameMap α :=
  entries.foldl (fun m e => set m e.1 e.2) []

/-- Both maps together; the second one's values replace the first one's. -/
def union (m other : NameMap α) : NameMap α := other.foldl (fun m e => set m e.1 e.2) m

/-- The names that have a value, in order. -/
def names (m : NameMap α) : List String := m.map (·.1)

/-- The entries of the given names, in the order of the map. -/
def restrict (m : NameMap α) (names : List String) : NameMap α :=
  ofEntries (names.filterMap fun name => (get? m name).map fun v => (name, v))

theorem get?_set_self (m : NameMap α) (name : String) (v : α) :
    get? (set m name v) name = some v := OrderedMap.find?_insert_self name v m

end NameMap

end ItemStore
