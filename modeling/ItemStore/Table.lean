import ItemStore.Key.Condition
import ItemStore.OrderedMap
import ItemStore.Page

/-!
# Tables

A table keeps items in partitions, one for each value of the partition key, and inside a
partition in the order of their sort keys. Numbers that are equal in value are the same key: a
partition is found by the canonical spelling of its number, and an entry whose sort key compares
equal is replaced, the spelling of the first entry's key staying behind. A query walks one
partition. A scan lists the items of all partitions in the order of their positions, so the
order of the partitions in the table does not show.
-/

namespace ItemStore

/-- The items of one partition, in the order of their sort keys. -/
abbrev Partition := List (SortKey × Item)

/-- A table: its key, its partitions in the order in which they were opened, and the number of
its items. -/
structure Table where
  schema : KeySchema
  partitions : List (Value × Partition)
  count : Nat
deriving DecidableEq

namespace Table

/-- A table without items. -/
def empty (schema : KeySchema) : Table := ⟨schema, [], 0⟩

/-- The value under which a partition is found: one spelling for each number. -/
def partitionOf : Value → Value
  | .number n => .number (Decimal.canonical n)
  | v => v

/-- The partition under a value; without one there are no items. -/
def partition (t : Table) (v : Value) : Partition :=
  match t.partitions.find? fun p => p.1 == partitionOf v with
  | some p => p.2
  | none => []

/-- Replace the partition under a value in its place, or add it at the end. -/
def setPartition (v : Value) (p : Partition) : List (Value × Partition) → List (Value × Partition)
  | [] => [(v, p)]
  | (w, q) :: rest => if w = v then (w, p) :: rest else (w, q) :: setPartition v p rest

/-- Put an item, and return the item that it replaces. -/
def put (t : Table) (item : Item) : Except KeyError (Option Item × Table) := do
  let (pk, sk) ← t.schema.extract item
  let old := t.partition pk.toValue
  let previous := OrderedMap.find? SortKey.compare sk old
  let new := OrderedMap.insert SortKey.compare sk item old
  .ok (previous, {
    t with
    partitions := setPartition (partitionOf pk.toValue) new t.partitions
    count := if previous.isSome then t.count else t.count + 1 })

/-- The item whose key attributes are those given. -/
def get (t : Table) (key : Item) : Except KeyError (Option Item) := do
  let (pk, sk) ← t.schema.extract key
  .ok (OrderedMap.find? SortKey.compare sk (t.partition pk.toValue))

/-- Whether an entry comes after the start in reading order. -/
def after (forward : Bool) (start : Option SortKey) (key : SortKey) : Bool :=
  match start with
  | none => true
  | some s => key.compare s == if forward then .gt else .lt

/-- The sort key at which reading starts. -/
def startOf (t : Table) : Option Item → Except KeyError (Option SortKey)
  | none => .ok none
  | some key => do
      let (_, sk) ← t.schema.extract key
      .ok (some sk)

/-- Read one page of a partition, in the order of the sort keys or against it. -/
def query (t : Table) (c : KeyCondition) (forward : Bool) (limit : Option Nat)
    (startKey : Option Item) : Except KeyError Page := do
  let start ← t.startOf startKey
  let entries := t.partition c.partition
  let ordered := if forward then entries else entries.reverse
  let selected := ordered.filter fun e =>
    after forward start e.1 && (c.sort.map fun s => s.holds e.1).getD true
  let items := (View.upTo limit selected).map (·.2)
  .ok (Page.ofItems items (View.reaches limit items.length) t.schema.keyOf)

/-- All items, partition by partition. -/
def items (t : Table) : List Item := t.partitions.flatMap fun p => p.2.map (·.2)

/-- The items for which the function gives a position. -/
def view (t : Table) (position : Item → Option Position) : View :=
  t.items.filterMap fun item => (position item).map fun p => (p, item)

/-- Read one page of all items, in the order of their positions. -/
def scan (t : Table) (limit : Option Nat) (startKey : Option Item) : Except KeyError Page := do
  let start ← match startKey with
    | none => .ok none
    | some key => (t.schema.position key).map some
  let view := (t.view fun item => (t.schema.position item).toOption).sort
  let (items, full) := view.page start true limit
  .ok (Page.ofItems items full t.schema.keyOf)

end Table

end ItemStore
