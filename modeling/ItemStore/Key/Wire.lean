import ItemStore.Key
import ItemStore.Value.Wire

/-!
# Exchanged forms of keys

A key is exchanged as the tagged value that it is, or as null when it is absent; a value of
another kind stands for an absent key. A condition on sort keys is an object with one member,
whose name is the relation.
-/

namespace ItemStore

namespace SortKey

def toJson : SortKey → Json
  | absent => .null
  | key => key.toValue.toJson

def ofJson : Decoder SortKey
  | .null => .ok absent
  | j => (Value.ofJson j).map ofValue

end SortKey

namespace SortCondition

def toJson : SortCondition → Json
  | eq k => .object [("eq", k.toJson)]
  | lt k => .object [("lt", k.toJson)]
  | le k => .object [("le", k.toJson)]
  | gt k => .object [("gt", k.toJson)]
  | ge k => .object [("ge", k.toJson)]
  | between low high => .object [("between", .array [low.toJson, high.toJson])]
  | beginsWith k => .object [("begins_with", k.toJson)]

/-- The relations to a single key. -/
def relations : List (String × (SortKey → SortCondition)) :=
  [("eq", eq), ("lt", lt), ("le", le), ("gt", gt), ("ge", ge), ("begins_with", beginsWith)]

def ofJson : Decoder SortCondition
  | .object [("between", .array [low, high])] => do
      let low ← SortKey.ofJson low
      let high ← SortKey.ofJson high
      .ok (between low high)
  | .object [(name, j)] =>
      match relations.find? fun r => r.1 == name with
      | some r => (SortKey.ofJson j).map r.2
      | none => .error (.unknownVariant name ("between" :: relations.map (·.1)))
  | j => Decoder.mismatch j "a condition on a sort key"

end SortCondition

end ItemStore
