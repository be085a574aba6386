import ItemStore.Condition.Evaluation
import ItemStore.Key

/-!
# Key conditions

The condition of a query must pick one partition and may restrict the sort key. It is a
conjunction, in any order and nesting, of one equality between the partition attribute and a
parameter, and of at most one restriction of the sort attribute: a comparison with a parameter,
a range between two parameters, or a beginning. `KeyCondition.ofCondition` finds these parts and
puts the values of the parameters in; every other condition is refused with the reason.
-/

namespace ItemStore

/-- Why a condition is no key condition. All of these are blamed on the request. There is no failure
for a sort attribute that is gone when its part is read, since a part is one on the sort attribute
only if the key has it. -/
inductive KeyConditionError where
  | repeatedPartition (name : String)
  | repeatedSort (name : String)
  | notKeyAttribute (name : String)
  | unsupportedShape
  | missingPartition (name : String)
  | partitionNeedsEquality (name : String)
  | unsupportedOperator (op : Comparator)
  | invertedBetween
  | numberBeginning
  | missingBeginning
  | unsupportedSortCondition
  | unboundValue (name : String)
  | notParameter (operand : Operand)
  | key (e : KeyError)
deriving DecidableEq

namespace KeyConditionError

def message : KeyConditionError → String
  | repeatedPartition name =>
      "KeyConditionExpression names the partition key " ++ name ++ " more than once"
  | repeatedSort name => "KeyConditionExpression names the sort key " ++ name ++ " more than once"
  | notKeyAttribute name =>
      "Query key condition not supported: " ++ name ++ " is not a key attribute"
  | unsupportedShape =>
      "Query key condition not supported: only AND of key comparisons, " ++
        "BETWEEN and begins_with is allowed"
  | missingPartition name => "Query condition missed key schema element: " ++ name
  | partitionNeedsEquality name =>
      "Query key condition not supported: partition key " ++ name ++ " requires an equality"
  | unsupportedOperator op => "Unsupported operator on KeyConditionExpression: " ++ op.text
  | invertedBetween =>
      "Invalid KeyConditionExpression: the BETWEEN lower bound is greater than the upper bound"
  | numberBeginning =>
      "Invalid KeyConditionExpression: begins_with is not supported on number keys"
  | missingBeginning => "begins_with requires a prefix argument"
  | unsupportedSortCondition => "Query key condition not supported on the sort key"
  | unboundValue name => "Value " ++ name ++ " not found in ExpressionAttributeValues"
  | notParameter operand =>
      "Expected a value reference in key condition, found " ++ operand.text
  | key e => e.message

end KeyConditionError

/-- What a query selects: the items of one partition whose sort key satisfies a condition. -/
structure KeyCondition where
  partition : Value
  sort : Option SortCondition
deriving DecidableEq

namespace KeyCondition

/-- The attribute that a part of the condition restricts, if the part has a supported shape. -/
def attributeOf : Condition → Option String
  | .compare left op right => if op = .ne then none else left.attribute?.or right.attribute?
  | .between value _ _ => value.attribute?
  | .call .beginsWith args => args.head?.bind Operand.attribute?
  | _ => none

/-- The value of a parameter. -/
def parameter (values : NameMap Value) : Operand → Except KeyConditionError Value
  | .param name =>
      match NameMap.get? values name with
      | some v => .ok v
      | none => .error (.unboundValue name)
  | operand => .error (.notParameter operand)

/-- The key that a parameter stands for. -/
def keyOf (a : KeyAttribute) (values : NameMap Value) (operand : Operand) :
    Except KeyConditionError SortKey := do
  let v ← parameter values operand
  (a.check v).mapError .key

/-- The partition value that a part of the condition picks. -/
def partitionValue (a : KeyAttribute) (values : NameMap Value) :
    Condition → Except KeyConditionError Value
  | .compare left .eq right => do
      let v ← parameter values (if left.attribute?.isSome then right else left)
      let _ ← (a.check v).mapError .key
      .ok v
  | _ => .error (.partitionNeedsEquality a.name)

/-- The condition that a comparison puts on the sort key. -/
def comparison (op : Comparator) (key : SortKey) : Except KeyConditionError SortCondition :=
  match op with
  | .eq => .ok (.eq key)
  | .lt => .ok (.lt key)
  | .le => .ok (.le key)
  | .gt => .ok (.gt key)
  | .ge => .ok (.ge key)
  | .ne => .error (.unsupportedOperator .ne)

/-- The condition that a part puts on the sort key. A comparison with the parameter on the left
is read from the other side. -/
def sortCondition (a : KeyAttribute) (values : NameMap Value) :
    Condition → Except KeyConditionError SortCondition
  | .compare left op right =>
      if left.attribute?.isSome then do
        let key ← keyOf a values right
        comparison op key
      else do
        let key ← keyOf a values left
        comparison op.flipped key
  | .between _ low high => do
      let low ← keyOf a values low
      let high ← keyOf a values high
      if low.compare high = .gt then .error .invertedBetween else .ok (.between low high)
  | .call _ args =>
      match args[1]? with
      | none => .error .missingBeginning
      | some operand => do
          match ← keyOf a values operand with
          | .number _ => .error .numberBeginning
          | key => .ok (.beginsWith key)
  | _ => .error .unsupportedSortCondition

/-- The parts of the condition that have been found. -/
structure Parts where
  partition : Option Value
  sort : Option SortCondition
deriving DecidableEq

/-- Take in one more part of the condition. -/
def Parts.add (s : KeySchema) (values : NameMap Value) (parts : Parts) (c : Condition) :
    Except KeyConditionError Parts :=
  match attributeOf c with
  | none => .error .unsupportedShape
  | some name =>
      if name = s.partition.name then
        if parts.partition.isSome then .error (.repeatedPartition name)
        else do
          let v ← partitionValue s.partition values c
          .ok { parts with partition := some v }
      else match s.sort with
        | some a =>
            if a.name = name then
              if parts.sort.isSome then .error (.repeatedSort name)
              else do
                let cond ← sortCondition a values c
                .ok { parts with sort := some cond }
            else .error (.notKeyAttribute name)
        | none => .error (.notKeyAttribute name)

/-- Take in parts in order. -/
def Parts.addAll (s : KeySchema) (values : NameMap Value) :
    Parts → List Condition → Except KeyConditionError Parts
  | parts, [] => .ok parts
  | parts, c :: rest => do
      let parts ← parts.add s values c
      Parts.addAll s values parts rest

/-- The key condition that a condition states, for a key and the values of the parameters. -/
def ofCondition (s : KeySchema) (values : NameMap Value) (c : Condition) :
    Except KeyConditionError KeyCondition := do
  let parts ← Parts.addAll s values ⟨none, none⟩ c.conjuncts
  match parts.partition with
  | some v => .ok ⟨v, parts.sort⟩
  | none => .error (.missingPartition s.partition.name)

end KeyCondition

end ItemStore
