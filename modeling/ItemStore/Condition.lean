import ItemStore.NameMap

/-!
# Conditions

A condition is a truth-valued expression about one item: comparisons, ranges and function calls
over attribute paths and parameters, joined by and, or and not. Parameters stand for values that
are bound when the condition is used.
-/

namespace ItemStore

/-- A comparison of two values. -/
inductive Comparator where
  | eq | ne | lt | le | gt | ge
deriving DecidableEq, Repr

namespace Comparator

/-- The comparison seen from the other side: `a < b` is `b > a`. -/
def flipped : Comparator → Comparator
  | lt => gt
  | le => ge
  | gt => lt
  | ge => le
  | eq => eq
  | ne => ne

def text : Comparator → String
  | eq => "="
  | ne => "<>"
  | lt => "<"
  | le => "<="
  | gt => ">"
  | ge => ">="

/-- Whether the comparison holds between two values in the given order. -/
def holds : Comparator → Ordering → Bool
  | eq, o => o == .eq
  | ne, o => o != .eq
  | lt, o => o == .lt
  | le, o => o != .gt
  | gt, o => o == .gt
  | ge, o => o != .lt

theorem holds_flipped_swap (op : Comparator) (o : Ordering) :
    op.flipped.holds o.swap = op.holds o := by
  cases op <;> cases o <;> rfl

end Comparator

/-- A truth-valued function. -/
inductive Function where
  | beginsWith
  | contains
  | attributeExists
  | attributeNotExists
deriving DecidableEq, Repr

namespace Function

/-- The name of the function in conditions. -/
def name : Function → String
  | beginsWith => "begins_with"
  | contains => "contains"
  | attributeExists => "attribute_exists"
  | attributeNotExists => "attribute_not_exists"

/-- All functions. -/
def all : List Function := [beginsWith, contains, attributeExists, attributeNotExists]

/-- The number of arguments that the function takes. -/
def arity : Function → Nat
  | beginsWith | contains => 2
  | attributeExists | attributeNotExists => 1

end Function

/-- What a condition compares. -/
inductive Operand where
  /-- An attribute of the item; further segments lead into nested maps. -/
  | path (segments : List String)
  /-- A bound parameter, named with its leading colon. -/
  | param (name : String)
deriving DecidableEq, Repr

namespace Operand

/-- The attribute that a path of a single segment names. -/
def attribute? : Operand → Option String
  | path [name] => some name
  | _ => none

def text : Operand → String
  | path segments => ".".intercalate segments
  | param name => name

end Operand

/-- A condition about one item. -/
inductive Condition where
  | compare (left : Operand) (op : Comparator) (right : Operand)
  /-- `low` is at most `value`, and `value` at most `high`. -/
  | between (value low high : Operand)
  | and (left right : Condition)
  | or (left right : Condition)
  | not (inner : Condition)
  | call (function : Function) (args : List Operand)
deriving DecidableEq, Repr

namespace Condition

/-- The parts that a condition joins by and, left to right. -/
def conjuncts : Condition → List Condition
  | and left right => left.conjuncts ++ right.conjuncts
  | c => [c]

end Condition

end ItemStore
