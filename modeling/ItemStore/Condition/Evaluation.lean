import ItemStore.Condition.Token
import ItemStore.Decimal
import ItemStore.Value

/-!
# Evaluating conditions

Values of one type are ordered: strings by their bytes, numbers by their value, binary data byte
by byte. All other values are only equal or unequal. A comparison with a missing attribute is
false, and a parameter that is not bound is an error. The second part of a conjunction or a
disjunction is evaluated only when the first does not decide it.
-/

namespace ItemStore

namespace Value

/-- The order of two values of one ordered type. Texts that are no numbers have none. -/
def order? : Value → Value → Option Ordering
  | string a, string b => some (compare a b)
  | number a, number b => Decimal.compareTexts a b
  | binary a, binary b => some (compare a b)
  | _, _ => none

/-- Whether a comparison holds between two values. -/
def test (op : Comparator) (a b : Value) : Bool :=
  match order? a b with
  | some o => op.holds o
  | none =>
      match op with
      | .eq => decide (a = b)
      | .ne => decide (a ≠ b)
      | _ => false

/-- Whether a list occurs in another one without gaps. -/
def occursIn {α : Type} [BEq α] (part : List α) : List α → Bool
  | [] => part.isEmpty
  | x :: xs => part.isPrefixOf (x :: xs) || occursIn part xs

/-- Whether the value begins with another one, both strings or both binary data. -/
def beginsWith : Value → Value → Bool
  | string s, string p => p.toList.isPrefixOf s.toList
  | binary b, binary p => p.isPrefixOf b
  | _, _ => false

/-- Whether the value contains another one: a string a part of it, a set a member as it is
written, a list an equal element. -/
def containsValue : Value → Value → Bool
  | string s, string part => occursIn part.toList s.toList
  | stringSet ms, string v => ms.contains v
  | numberSet ms, number v => ms.contains v
  | binarySet ms, binary v => ms.contains v
  | list xs, v => decide (v ∈ xs)
  | _, _ => false

end Value

namespace Item

/-- Follow names from a value into nested maps. -/
def follow : Value → List String → Option Value
  | v, [] => some v
  | .map m, name :: rest => (NameMap.get? m name).bind fun v => follow v rest
  | _, _ :: _ => none

/-- The value at a path. -/
def lookup (item : Item) : List String → Option Value
  | [] => none
  | name :: rest => (NameMap.get? item name).bind fun v => follow v rest

end Item

namespace Operand

/-- The value of an operand; a path may lead nowhere, a parameter must be bound. -/
def resolve (item : Item) (values : NameMap Value) :
    Operand → Except ExpressionError (Option Value)
  | path segments => .ok (Item.lookup item segments)
  | param name =>
      match NameMap.get? values name with
      | some v => .ok (some v)
      | none => .error (.unresolvedValue name)

end Operand

namespace Function

/-- The second argument of a call, which must have a value. -/
def argument (item : Item) (values : NameMap Value) (f : Function) (args : List Operand) :
    Except ExpressionError Value :=
  match args[1]? with
  | none => .error (.arity f args.length)
  | some operand => do
      match ← operand.resolve item values with
      | some v => .ok v
      | none => .error (.invalidOperand f (.noValue operand))

/-- The value of a call. -/
def eval (item : Item) (values : NameMap Value) (f : Function) (args : List Operand) :
    Except ExpressionError Bool :=
  match args.head? with
  | some (.path segments) =>
      let target := Item.lookup item segments
      match f with
      | attributeExists => .ok target.isSome
      | attributeNotExists => .ok target.isNone
      | beginsWith => do
          let p ← argument item values f args
          .ok (match target with | some v => v.beginsWith p | none => false)
      | contains => do
          let p ← argument item values f args
          .ok (match target with | some v => v.containsValue p | none => false)
  | _ => .error (.invalidOperand f .notPath)

end Function

namespace Condition

/-- Whether the condition holds of an item, under the given values of its parameters. -/
def eval (item : Item) (values : NameMap Value) : Condition → Except ExpressionError Bool
  | compare left op right => do
      let l ← left.resolve item values
      let r ← right.resolve item values
      match l, r with
      | some l, some r => .ok (Value.test op l r)
      | _, _ => .ok false
  | between value low high => do
      let v ← value.resolve item values
      let lo ← low.resolve item values
      let hi ← high.resolve item values
      match v, lo, hi with
      | some v, some lo, some hi => .ok (Value.test .ge v lo && Value.test .le v hi)
      | _, _, _ => .ok false
  | and left right => do
      if ← left.eval item values then right.eval item values else .ok false
  | or left right => do
      if ← left.eval item values then .ok true else right.eval item values
  | not inner => do
      let b ← inner.eval item values
      .ok (!b)
  | call f args => f.eval item values args

end Condition

end ItemStore
