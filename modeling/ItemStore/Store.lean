import ItemStore.Condition.Parser
import ItemStore.Request
import ItemStore.Store.Error
import ItemStore.Table
import ItemStore.Value.Wire

/-!
# The store

A store holds tables by name, each with its indexes. An index is another key over the items of
the same table; it shows the items that have that key, in the order of the index key and then of
the table key. A filter is applied to a page after the page has been cut, so a page may show
fewer items than its limit and still not be the last.
-/

namespace ItemStore

/-- A table with its indexes. -/
structure IndexedTable where
  table : Table
  indexes : NameMap KeySchema
deriving DecidableEq

/-- All tables, and the page limit for requests that name none. -/
structure Store where
  tables : NameMap IndexedTable
  defaultLimit : Option Nat
deriving DecidableEq

namespace KeySchema

/-- The declared type of a key attribute; the first declaration of a name counts. -/
def attributeOf (definitions : List AttributeDefinition) (e : KeyElement) :
    Except KeySchemaError KeyAttribute :=
  match definitions.find? fun d => d.name == e.name with
  | some d => .ok ⟨d.name, d.type⟩
  | none => .error (.undefinedAttribute e.name)

/-- The key with the given elements. -/
def ofElements (definitions : List AttributeDefinition) :
    List KeyElement → Except KeySchemaError KeySchema
  | [⟨name, .partition⟩] => do
      let pk ← attributeOf definitions ⟨name, .partition⟩
      .ok ⟨pk, none⟩
  | [⟨name, .partition⟩, ⟨sortName, .sort⟩] =>
      if name = sortName then .error .sameAttribute
      else do
        let pk ← attributeOf definitions ⟨name, .partition⟩
        let sk ← attributeOf definitions ⟨sortName, .sort⟩
        .ok ⟨pk, some sk⟩
  | _ => .error .badShape

end KeySchema

namespace IndexedTable

/-- The key of an index. -/
def index (t : IndexedTable) (name : String) : Except StoreError KeySchema :=
  match NameMap.get? t.indexes name with
  | some s => .ok s
  | none => .error (.indexNotFound name)

/-- The position of an item in an index: its index key, then its table key. -/
def indexPosition (t : IndexedTable) (index : KeySchema) (item : Item) :
    Except KeyError Position := do
  let p ← index.position item
  let q ← t.table.schema.position item
  .ok (p ++ q)

/-- The items that an index shows and whose position is wanted, in order. -/
def indexView (t : IndexedTable) (index : KeySchema) (wanted : Position → Bool) : View :=
  View.sort (t.table.view fun item =>
    match t.indexPosition index item with
    | .ok p => if wanted p then some p else none
    | .error _ => none)

/-- Whether a position in an index matches a key condition on the index key. -/
def matchesKey (c : KeyCondition) : Position → Bool
  | pk :: sk :: _ =>
      pk.same (SortKey.ofValue c.partition) && (c.sort.map fun s => s.holds sk).getD true
  | _ => false

/-- The attributes of the table key and of the index key. -/
def indexKeyOf (t : IndexedTable) (index : KeySchema) (item : Item) : Item :=
  NameMap.union (t.table.schema.keyOf item) (index.keyOf item)

/-- Cut a page out of the view of an index. -/
def readIndex (t : IndexedTable) (index : KeySchema) (view : View) (startKey : Option Item)
    (forward : Bool) (limit : Option Nat) : Except StoreError Page := do
  let start ← match startKey with
    | none => .ok none
    | some key => ((t.indexPosition index key).map some).mapError .key
  let (items, full) := view.page start forward limit
  .ok (Page.ofItems items full (t.indexKeyOf index))

end IndexedTable

namespace Store

/-- A store without tables. -/
def empty (defaultLimit : Option Nat) : Store := ⟨[], defaultLimit⟩

/-- The names of the tables, in order. -/
def tableNames (s : Store) : List String := NameMap.names s.tables

/-- The table with a name. -/
def table (s : Store) (name : String) : Except StoreError IndexedTable :=
  match NameMap.get? s.tables name with
  | some t => .ok t
  | none => .error (.tableNotFound name)

/-! ## Creating tables -/

/-- The indexes with the given definitions. -/
def declareIndexes (definitions : List AttributeDefinition) :
    NameMap KeySchema → List IndexDefinition → Except StoreError (NameMap KeySchema)
  | indexes, [] => .ok indexes
  | indexes, d :: rest => do
      let schema ← (KeySchema.ofElements definitions d.key).mapError .keySchema
      if (NameMap.get? indexes d.index).isSome then .error (.duplicateIndex d.index)
      else declareIndexes definitions (NameMap.set indexes d.index schema) rest

/-- Create a table. A definition is judged before its name is looked up. -/
def createTable (s : Store) (r : CreateTable) : Except StoreError (TableCreated × Store) := do
  if r.table.isEmpty then .error .emptyTableName
  else
    let schema ← (KeySchema.ofElements r.definitions r.key).mapError .keySchema
    let indexes ← declareIndexes r.definitions [] r.indexes
    if (NameMap.get? s.tables r.table).isSome then .error (.tableExists r.table)
    else .ok (⟨r.table⟩, { s with
      tables := NameMap.set s.tables r.table ⟨Table.empty schema, indexes⟩ })

/-! ## Writing items -/

/-- Put an item into a table. -/
def putItem (s : Store) (r : PutItem) : Except StoreError (ItemPut × Store) := do
  let t ← s.table r.table
  let (_, table) ← (t.table.put r.item).mapError .key
  .ok ({}, { s with tables := NameMap.set s.tables r.table { t with table := table } })

/-- Put items in order until one fails; the items before it stay. -/
def putAll (t : Table) : List Item → Except KeyError Unit × Table
  | [] => (.ok (), t)
  | item :: rest =>
      match t.put item with
      | .ok (_, t) => putAll t rest
      | .error e => (.error e, t)

/-- Put the items of a JSON text, an array of items, into a table. The text is read before the
table is looked up. The number of items is returned. -/
def load (s : Store) (name text : String) : Except StoreError Nat × Store :=
  match Item.listOfText text with
  | .error e => (.error (.unreadableItems name e), s)
  | .ok items =>
      match s.table name with
      | .error e => (.error e, s)
      | .ok t =>
          let (result, table) := putAll t.table items
          (((result.map fun _ => items.length).mapError .key),
            { s with tables := NameMap.set s.tables name { t with table := table } })

/-- The number of items in a table. -/
def itemCount (s : Store) (name : String) : Except StoreError Nat := do
  let t ← s.table name
  .ok t.table.count

/-- The number of items in all tables. -/
def itemTotal (s : Store) : Nat := (s.tables.flatMap fun t => t.2.table.items).length

/-! ## Reading items -/

/-- Read an item by its key. -/
def getItem (s : Store) (r : GetItem) : Except StoreError ItemRead := do
  let t ← s.table r.table
  if r.key.length ≠ t.table.schema.names.length then .error .keyMismatch
  else do
    let item ← (t.table.get r.key).mapError .key
    .ok ⟨item⟩

/-- The limit of a page: the requested one, which must be positive, or the store's own. -/
def pageLimit (s : Store) : Option Int → Except StoreError (Option Nat)
  | some n => if n ≤ 0 then .error .nonPositiveLimit else .ok (some n.toNat)
  | none => .ok s.defaultLimit

/-- Read a condition from its text. -/
def readCondition (text : String) : Except StoreError Condition :=
  (Condition.ofText text).mapError .expression

/-- The filter of a request; a blank text is no filter. -/
def readFilter : Option String → Except StoreError (Option Condition)
  | none => .ok none
  | some text => if Text.allBlank text then .ok none else (readCondition text).map some

/-- The key after which a page starts; an empty key is none. -/
def startOf (key : Item) : Option Item := if key.isEmpty then none else some key

/-- The items that pass a filter, in order. -/
def keepMatching (filter : Condition) (values : NameMap Value) :
    List Item → Except StoreError (List Item)
  | [] => .ok []
  | item :: rest => do
      let keep ← (filter.eval item values).mapError .expression
      let kept ← keepMatching filter values rest
      .ok (if keep then item :: kept else kept)

/-- A number of items as a 32-bit integer; larger numbers count as the largest one. -/
def countOf (n : Nat) : Int := Int.ofNat (min n (Nat.pow 2 31 - 1))

/-- The answer that shows a page through a filter. -/
def answer (page : Page) (filter : Option Condition) (values : NameMap Value) :
    Except StoreError PageRead := do
  let items ← match filter with
    | none => .ok page.items
    | some f => keepMatching f values page.items
  .ok ⟨items, countOf items.length, countOf page.items.length, page.lastKey⟩

/-- Read one page of the items that match a key condition. -/
def query (s : Store) (r : Query) : Except StoreError PageRead := do
  let t ← s.table r.table
  let limit ← s.pageLimit r.limit
  let filter ← readFilter r.filter
  let condition ← readCondition r.keyCondition
  let forward := r.forward.getD true
  let start := startOf r.startKey
  let page ← match r.index with
    | none => do
        let c ← (KeyCondition.ofCondition t.table.schema r.values condition).mapError .keyCondition
        (t.table.query c forward limit start).mapError .key
    | some name => do
        let index ← t.index name
        let c ← (KeyCondition.ofCondition index r.values condition).mapError .keyCondition
        let view := t.indexView index (IndexedTable.matchesKey c)
        t.readIndex index view start forward limit
  answer page filter r.values

/-- Read one page of all items. -/
def scan (s : Store) (r : Scan) : Except StoreError PageRead := do
  let t ← s.table r.table
  let limit ← s.pageLimit r.limit
  let filter ← readFilter r.filter
  let start := startOf r.startKey
  let page ← match r.index with
    | none => (t.table.scan limit start).mapError .key
    | some name => do
        let index ← t.index name
        t.readIndex index (t.indexView index fun _ => true) start true limit
  answer page filter r.values

end Store

end ItemStore
