import ItemStore.Criteria
import ItemStore.Value.Wire

/-!
# Exchanged form of criteria

A criterion as JSON: equality, a beginning or a range under its own name, every other comparison
under its operator.
-/

namespace ItemStore

def Criterion.toJson : Criterion → Json
  | equals v => .object [("eq", v.toJson)]
  | compare op v => .object [("cmp", .string op.text), ("value", v.toJson)]
  | beginsWith v => .object [("begins_with", v.toJson)]
  | between low high => .object [("between", .array [low.toJson, high.toJson])]

def BoundCondition.toJson (c : BoundCondition) : Json :=
  .object [("expression", .string c.text), ("optional", (c.text?.map Json.string).getD .null),
    ("values", Item.toJson c.values)]

end ItemStore
