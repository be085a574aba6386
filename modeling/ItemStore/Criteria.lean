import ItemStore.Condition
import ItemStore.Value

/-!
# Criteria

A criterion says what one attribute must satisfy, and criteria name one criterion for each of
several attributes, in the order in which the attributes were first named. Compiling criteria
writes them down as the text of a condition, one clause for each attribute joined by `and`, and
collects the values of the parameters that the clauses mention. The parameter of an attribute is
its name after a colon, with `min` or `max` added for the bounds of a range; a parameter that
would stand for two different values is a conflict.
-/

namespace ItemStore

/-- The comparisons of a criterion other than equality. -/
inductive OrderOperator where
  | lt | le | gt | ge
deriving DecidableEq, Repr

/-- Why criteria cannot be compiled. -/
inductive CompileError where
  | unknownOperator (tag : String)
  | conflictingBinding (name : String)
deriving DecidableEq, Repr

namespace CompileError

def message : CompileError → String
  | unknownOperator tag => "unknown comparison operator: " ++ tag
  | conflictingBinding name => "parameter " ++ name ++ " is bound to conflicting values"

end CompileError

namespace OrderOperator

def text : OrderOperator → String
  | lt => "<"
  | le => "<="
  | gt => ">"
  | ge => ">="

/-- All operators. -/
def all : List OrderOperator := [lt, le, gt, ge]

/-- The operator with a tag. -/
def ofTag (tag : String) : Except CompileError OrderOperator :=
  match all.find? fun op => op.text == tag with
  | some op => .ok op
  | none => .error (.unknownOperator tag)

/-- The comparison that the operator stands for. -/
def comparator : OrderOperator → Comparator
  | lt => .lt
  | le => .le
  | gt => .gt
  | ge => .ge

theorem text_comparator (op : OrderOperator) : op.comparator.text = op.text := by
  cases op <;> rfl

end OrderOperator

/-- What one attribute must satisfy. -/
inductive Criterion where
  | equals (v : Value)
  | compare (op : OrderOperator) (v : Value)
  | beginsWith (v : Value)
  /-- At least `low` and at most `high`. -/
  | between (low high : Value)
deriving DecidableEq

namespace Criterion

/-- The criterion of a comparison tag; `=` stands for equality. -/
def ofTag (tag : String) (v : Value) : Except CompileError Criterion :=
  if tag == "=" then .ok (equals v)
  else do
    let op ← OrderOperator.ofTag tag
    .ok (compare op v)

/-- The text of the criterion on a named attribute. -/
def clause (name : String) : Criterion → String
  | equals _ => name ++ " = :" ++ name
  | compare op _ => name ++ " " ++ op.text ++ " :" ++ name
  | beginsWith _ => "begins_with(" ++ name ++ ", :" ++ name ++ ")"
  | between _ _ => name ++ " between :" ++ name ++ "min and :" ++ name ++ "max"

/-- The parameters that the text mentions, with their values. -/
def bindings (name : String) : Criterion → List (String × Value)
  | equals v => [(":" ++ name, v)]
  | compare _ v => [(":" ++ name, v)]
  | beginsWith v => [(":" ++ name, v)]
  | between low high => [(":" ++ name ++ "min", low), (":" ++ name ++ "max", high)]

end Criterion

/-- A criterion for each of several attributes, in the order in which they were first named. -/
structure Criteria where
  entries : List (String × Criterion)
deriving DecidableEq

namespace Criteria

/-- No criteria. -/
def empty : Criteria := ⟨[]⟩

/-- Replace the criterion of a name in its place, or add it at the end. -/
def setEntry (name : String) (c : Criterion) :
    List (String × Criterion) → List (String × Criterion)
  | [] => [(name, c)]
  | (n, d) :: rest => if n = name then (n, c) :: rest else (n, d) :: setEntry name c rest

/-- Set the criterion of an attribute. -/
def set (cs : Criteria) (name : String) (c : Criterion) : Criteria :=
  ⟨setEntry name c cs.entries⟩

/-- The criteria of some entries, set in order. -/
def ofEntries (entries : List (String × Criterion)) : Criteria :=
  entries.foldl (fun cs e => cs.set e.1 e.2) empty

/-- The criterion of an attribute. -/
def get? (cs : Criteria) (name : String) : Option Criterion :=
  (cs.entries.find? fun e => e.1 == name).map (·.2)

/-- The number of attributes that have a criterion. -/
def size (cs : Criteria) : Nat := cs.entries.length

def isEmpty (cs : Criteria) : Bool := cs.entries.isEmpty

/-- All parameters that the texts of the entries mention, in order, with their values. -/
def bindings (cs : Criteria) : List (String × Value) :=
  cs.entries.flatMap fun e => e.2.bindings e.1

end Criteria

/-- The text of a condition with the values of the parameters that it mentions. An empty text is
no condition. -/
structure BoundCondition where
  text : String
  values : NameMap Value
deriving DecidableEq

namespace BoundCondition

/-- No condition. -/
def none : BoundCondition := ⟨"", []⟩

/-- The text, unless there is no condition. -/
def text? (c : BoundCondition) : Option String := if c.text.isEmpty then .none else some c.text

/-- Bind a parameter. -/
def bind (values : NameMap Value) (b : String × Value) : Except CompileError (NameMap Value) :=
  match NameMap.get? values b.1 with
  | .none => .ok (NameMap.set values b.1 b.2)
  | some v => if v = b.2 then .ok values else .error (.conflictingBinding b.1)

/-- Bind parameters in order. -/
def bindAll : NameMap Value → List (String × Value) → Except CompileError (NameMap Value)
  | values, [] => .ok values
  | values, b :: rest => do
      let values ← bind values b
      bindAll values rest

/-- A parameter that both maps bind, to different values. -/
def conflict? (base other : NameMap Value) : Option String :=
  (other.find? fun b =>
    match NameMap.get? base b.1 with
    | some v => decide (v ≠ b.2)
    | .none => false).map (·.1)

/-- Add the values of another condition. -/
def mergeValues (c other : BoundCondition) : Except CompileError BoundCondition :=
  match conflict? c.values other.values with
  | some name => .error (.conflictingBinding name)
  | .none => .ok { c with values := NameMap.union c.values other.values }

end BoundCondition

namespace Criteria

/-- The text of the criteria. -/
def text (cs : Criteria) : String :=
  " and ".intercalate (cs.entries.map fun e => e.2.clause e.1)

/-- Write criteria down as a condition. -/
def compile (cs : Criteria) : Except CompileError BoundCondition := do
  let values ← BoundCondition.bindAll [] cs.bindings
  .ok ⟨cs.text, values⟩

/-- Write down criteria that may be absent. -/
def compileOptional : Option Criteria → Except CompileError BoundCondition
  | none => .ok BoundCondition.none
  | some cs => cs.compile

end Criteria

end ItemStore
