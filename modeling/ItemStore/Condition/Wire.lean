import ItemStore.Condition
import ItemStore.Json

/-!
# Exchanged form of conditions

The syntax tree of a condition as JSON: each node is an object with one member, whose name is the
kind of the node and whose value holds its parts in order.
-/

namespace ItemStore

def Operand.toJson : Operand → Json
  | path segments => .object [("path", .array (segments.map .string))]
  | param name => .object [("param", .string name)]

def Condition.toJson : Condition → Json
  | compare left op right =>
      .object [("compare", .array [left.toJson, .string op.text, right.toJson])]
  | between value low high =>
      .object [("between", .array [value.toJson, low.toJson, high.toJson])]
  | and left right => .object [("and", .array [left.toJson, right.toJson])]
  | or left right => .object [("or", .array [left.toJson, right.toJson])]
  | not inner => .object [("not", inner.toJson)]
  | call function args =>
      .object [("call", .array [.string function.name, .array (args.map Operand.toJson)])]

end ItemStore
