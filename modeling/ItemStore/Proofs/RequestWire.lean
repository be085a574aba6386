import ItemStore.Proofs.Record
import ItemStore.Proofs.TaggedValue

/-!
# Requests and responses are read back

Each request and each response, and each part of a table's description, is read back from what is
written for it, although what is absent or empty is left out.  A record is described by its slots;
that they restore its parts is all that is proved about it, the rest is `Layout`.
-/

namespace ItemStore

open Decode (Faithful Field Members)

/-! ## The parts of a table's description -/

theorem KeyRole.ofJson_toJson (r : KeyRole) : ofJson r.toJson = .ok r := by
  cases r <;> rfl

theorem ScalarType.ofJson_toJson (t : ScalarType) : ofJson t.toJson = .ok t := by
  cases t <;> rfl

namespace KeyElement

def slots (e : KeyElement) : List Slot :=
  [.always "AttributeName" Decoder.string (.string e.name),
    .always "KeyType" KeyRole.ofJson e.role.toJson]

theorem layout (e : KeyElement) : Layout fields e.slots where
  fields_eq := rfl
  nodup := by decide
  restores := by
    simp only [slots, List.forall_mem_cons]
    exact ⟨Slot.restores_always rfl, Slot.restores_always e.role.ofJson_toJson, nofun⟩

theorem faithful : Faithful fields ofJson toJson fun _ => True where
  reads e _ := by
    have h := e.layout
    refine bind_eq_ok_iff.mpr ⟨_, h.read _, ?_⟩
    refine bind_eq_ok_iff.mpr ⟨e.name, h.required 0 rfl rfl, ?_⟩
    exact bind_eq_ok_iff.mpr ⟨e.role, h.required 1 rfl e.role.ofJson_toJson, rfl⟩
  omits e _ := ⟨_, rfl, e.layout.minimal⟩

theorem ofJson_toJson (e : KeyElement) : ofJson e.toJson = .ok e := faithful.reads e trivial

theorem list_eq_ok (es : List KeyElement) :
    Decoder.list ofJson (.array (es.map toJson)) = .ok es :=
  Decoder.elements_map fun e _ => e.ofJson_toJson

end KeyElement

namespace AttributeDefinition

def slots (a : AttributeDefinition) : List Slot :=
  [.always "AttributeName" Decoder.string (.string a.name),
    .always "AttributeType" ScalarType.ofJson a.type.toJson]

theorem layout (a : AttributeDefinition) : Layout fields a.slots where
  fields_eq := rfl
  nodup := by decide
  restores := by
    simp only [slots, List.forall_mem_cons]
    exact ⟨Slot.restores_always rfl, Slot.restores_always a.type.ofJson_toJson, nofun⟩

theorem faithful : Faithful fields ofJson toJson fun _ => True where
  reads a _ := by
    have h := a.layout
    refine bind_eq_ok_iff.mpr ⟨_, h.read _, ?_⟩
    refine bind_eq_ok_iff.mpr ⟨a.name, h.required 0 rfl rfl, ?_⟩
    exact bind_eq_ok_iff.mpr ⟨a.type, h.required 1 rfl a.type.ofJson_toJson, rfl⟩
  omits a _ := ⟨_, rfl, a.layout.minimal⟩

theorem list_eq_ok (as : List AttributeDefinition) :
    Decoder.list ofJson (.array (as.map toJson)) = .ok as :=
  Decoder.elements_map fun a _ => faithful.reads a trivial

end AttributeDefinition

namespace IndexDefinition

def slots (i : IndexDefinition) : List Slot :=
  [.always "IndexName" Decoder.string (.string i.index),
    .always "KeySchema" (Decoder.list KeyElement.ofJson) (.array (i.key.map KeyElement.toJson))]

theorem layout (i : IndexDefinition) : Layout fields i.slots where
  fields_eq := rfl
  nodup := by decide
  restores := by
    simp only [slots, List.forall_mem_cons]
    exact ⟨Slot.restores_always rfl, Slot.restores_always (KeyElement.list_eq_ok i.key), nofun⟩

theorem faithful : Faithful fields ofJson toJson fun _ => True where
  reads i _ := by
    have h := i.layout
    refine bind_eq_ok_iff.mpr ⟨_, h.read _, ?_⟩
    refine bind_eq_ok_iff.mpr ⟨i.index, h.required 0 rfl rfl, ?_⟩
    exact bind_eq_ok_iff.mpr ⟨i.key, h.required 1 rfl (KeyElement.list_eq_ok i.key), rfl⟩
  omits i _ := ⟨_, rfl, i.layout.minimal⟩

theorem list_eq_ok (is : List IndexDefinition) :
    Decoder.list ofJson (.array (is.map toJson)) = .ok is :=
  Decoder.elements_map fun i _ => faithful.reads i trivial

end IndexDefinition

/-! ## Items -/

namespace Item

variable {item : Item}

theorem wellFormed_nil : WellFormed [] := ⟨NameMap.ascending_nil, nofun⟩

theorem WellFormed.ofJson_toJson (h : WellFormed item) : ofJson (toJson item) = .ok item := by
  have hentries : Decoder.entries Value.ofJson (Value.entriesToJson item) = .ok item := by
    rw [Value.entriesToJson_eq_map]
    exact Decoder.entries_map fun e he => Value.ofJson_toJson (h.values e he)
  refine map_eq_ok_iff.mpr ⟨item, hentries, ?_⟩
  exact h.ascending.ofEntries_self

theorem toJson_ne_empty (h : item ≠ []) : toJson item ≠ .array [] ∧ toJson item ≠ .object [] := by
  refine ⟨nofun, ?_⟩
  intro hjson
  rw [toJson, Json.object.injEq, Value.entriesToJson_eq_map, List.map_eq_nil_iff] at hjson
  exact h hjson

end Item

theorem Decoder.int32_eq_ok {i : Int} (h : (Text.IntRange.signed 32).holds i = true) :
    Decoder.int32 (.int i) = .ok i := by
  rw [Decoder.int32, Json.int, Decoder.int, if_pos h]

/-! ## Scalar fields that may be left out -/

namespace Slot

theorem restores_string (name : String) (v : Option String) :
    (optional name Decoder.string v .string).Restores :=
  restores_optional (fun _ _ => rfl) (fun _ _ => nofun)

theorem restores_bool (name : String) (v : Option Bool) :
    (optional name Decoder.bool v .bool).Restores :=
  restores_optional (fun _ _ => rfl) (fun _ _ => nofun)

theorem restores_int32 (name : String) {v : Option Int}
    (h : ∀ n ∈ v, (Text.IntRange.signed 32).holds n = true) :
    (optional name Decoder.int32 v .int).Restores :=
  restores_optional (fun n hn => Decoder.int32_eq_ok (h n hn)) (fun _ _ => nofun)

end Slot

/-! ## Requests -/

namespace CreateTable

def slots (r : CreateTable) : List Slot :=
  [.always "TableName" Decoder.string (.string r.table),
    .always "KeySchema" (Decoder.list KeyElement.ofJson) (.array (r.key.map KeyElement.toJson)),
    .always "AttributeDefinitions" (Decoder.list AttributeDefinition.ofJson)
      (.array (r.definitions.map AttributeDefinition.toJson)),
    .nonEmpty "GlobalSecondaryIndexes" (Decoder.list IndexDefinition.ofJson) r.indexes
      fun xs => .array (xs.map IndexDefinition.toJson)]

theorem layout (r : CreateTable) : Layout fields r.slots where
  fields_eq := rfl
  nodup := by decide
  restores := by
    simp only [slots, List.forall_mem_cons]
    exact ⟨Slot.restores_always rfl, Slot.restores_always (KeyElement.list_eq_ok r.key),
      Slot.restores_always (AttributeDefinition.list_eq_ok r.definitions),
      Slot.restores_nonEmpty (IndexDefinition.list_eq_ok r.indexes) (by simp), nofun⟩

theorem faithful : Faithful fields ofJson toJson fun _ => True where
  reads r _ := by
    have h := r.layout
    refine bind_eq_ok_iff.mpr ⟨_, h.read _, ?_⟩
    refine bind_eq_ok_iff.mpr ⟨r.table, h.required 0 rfl rfl, ?_⟩
    refine bind_eq_ok_iff.mpr ⟨r.key, h.required 1 rfl (KeyElement.list_eq_ok r.key), ?_⟩
    refine bind_eq_ok_iff.mpr
      ⟨r.definitions, h.required 2 rfl (AttributeDefinition.list_eq_ok r.definitions), ?_⟩
    exact bind_eq_ok_iff.mpr
      ⟨r.indexes, h.defaulted 3 rfl (IndexDefinition.list_eq_ok r.indexes), rfl⟩
  omits r _ := ⟨_, rfl, r.layout.minimal⟩

end CreateTable

namespace PutItem

def slots (r : PutItem) : List Slot :=
  [.always "TableName" Decoder.string (.string r.table),
    .always "Item" Item.ofJson (Item.toJson r.item)]

theorem layout {r : PutItem} (hr : Item.WellFormed r.item) : Layout fields r.slots where
  fields_eq := rfl
  nodup := by decide
  restores := by
    simp only [slots, List.forall_mem_cons]
    exact ⟨Slot.restores_always rfl, Slot.restores_always hr.ofJson_toJson, nofun⟩

theorem faithful : Faithful fields ofJson toJson fun r => Item.WellFormed r.item where
  reads r hr := by
    have h := layout hr
    refine bind_eq_ok_iff.mpr ⟨_, h.read _, ?_⟩
    refine bind_eq_ok_iff.mpr ⟨r.table, h.required 0 rfl rfl, ?_⟩
    exact bind_eq_ok_iff.mpr ⟨r.item, h.required 1 rfl hr.ofJson_toJson, rfl⟩
  omits r hr := ⟨_, rfl, (layout hr).minimal⟩

end PutItem

namespace GetItem

def slots (r : GetItem) : List Slot :=
  [.always "TableName" Decoder.string (.string r.table),
    .always "Key" Item.ofJson (Item.toJson r.key),
    .optional "ConsistentRead" Decoder.bool r.consistentRead .bool]

theorem layout {r : GetItem} (hr : Item.WellFormed r.key) : Layout fields r.slots where
  fields_eq := rfl
  nodup := by decide
  restores := by
    simp only [slots, List.forall_mem_cons]
    exact ⟨Slot.restores_always rfl, Slot.restores_always hr.ofJson_toJson,
      Slot.restores_bool _ _, nofun⟩

theorem faithful : Faithful fields ofJson toJson fun r => Item.WellFormed r.key where
  reads r hr := by
    have h := layout hr
    refine bind_eq_ok_iff.mpr ⟨_, h.read _, ?_⟩
    refine bind_eq_ok_iff.mpr ⟨r.table, h.required 0 rfl rfl, ?_⟩
    refine bind_eq_ok_iff.mpr ⟨r.key, h.required 1 rfl hr.ofJson_toJson, ?_⟩
    exact bind_eq_ok_iff.mpr ⟨r.consistentRead, h.nullable 2 rfl (fun _ _ => rfl), rfl⟩
  omits r hr := ⟨_, rfl, (layout hr).minimal⟩

end GetItem

namespace Query

/-- The items are in order, and the limit is a word of 32 bits. -/
structure WellFormed (r : Query) : Prop where
  values : Item.WellFormed r.values
  startKey : Item.WellFormed r.startKey
  limit : ∀ n ∈ r.limit, (Text.IntRange.signed 32).holds n = true

def slots (r : Query) : List Slot :=
  [.always "TableName" Decoder.string (.string r.table),
    .optional "IndexName" Decoder.string r.index .string,
    .always "KeyConditionExpression" Decoder.string (.string r.keyCondition),
    .optional "FilterExpression" Decoder.string r.filter .string,
    .nonEmpty "ExpressionAttributeValues" Item.ofJson r.values Item.toJson,
    .optional "ScanIndexForward" Decoder.bool r.forward .bool,
    .optional "Limit" Decoder.int32 r.limit .int,
    .nonEmpty "ExclusiveStartKey" Item.ofJson r.startKey Item.toJson,
    .optional "ConsistentRead" Decoder.bool r.consistentRead .bool]

theorem layout {r : Query} (hr : r.WellFormed) : Layout fields r.slots where
  fields_eq := rfl
  nodup := by decide
  restores := by
    simp only [slots, List.forall_mem_cons]
    exact ⟨Slot.restores_always rfl, Slot.restores_string _ _, Slot.restores_always rfl,
      Slot.restores_string _ _,
      Slot.restores_nonEmpty hr.values.ofJson_toJson Item.toJson_ne_empty,
      Slot.restores_bool _ _, Slot.restores_int32 _ hr.limit,
      Slot.restores_nonEmpty hr.startKey.ofJson_toJson Item.toJson_ne_empty,
      Slot.restores_bool _ _, nofun⟩

theorem faithful : Faithful fields ofJson toJson WellFormed where
  reads r hr := by
    have h := layout hr
    refine bind_eq_ok_iff.mpr ⟨_, h.read _, ?_⟩
    refine bind_eq_ok_iff.mpr ⟨r.table, h.required 0 rfl rfl, ?_⟩
    refine bind_eq_ok_iff.mpr ⟨r.index, h.nullable 1 rfl (fun _ _ => rfl), ?_⟩
    refine bind_eq_ok_iff.mpr ⟨r.keyCondition, h.required 2 rfl rfl, ?_⟩
    refine bind_eq_ok_iff.mpr ⟨r.filter, h.nullable 3 rfl (fun _ _ => rfl), ?_⟩
    refine bind_eq_ok_iff.mpr ⟨r.values, h.defaulted 4 rfl hr.values.ofJson_toJson, ?_⟩
    refine bind_eq_ok_iff.mpr ⟨r.forward, h.nullable 5 rfl (fun _ _ => rfl), ?_⟩
    refine bind_eq_ok_iff.mpr
      ⟨r.limit, h.nullable 6 rfl (fun n hn => Decoder.int32_eq_ok (hr.limit n hn)), ?_⟩
    refine bind_eq_ok_iff.mpr ⟨r.startKey, h.defaulted 7 rfl hr.startKey.ofJson_toJson, ?_⟩
    exact bind_eq_ok_iff.mpr ⟨r.consistentRead, h.nullable 8 rfl (fun _ _ => rfl), rfl⟩
  omits r hr := ⟨_, rfl, (layout hr).minimal⟩

end Query

namespace Scan

/-- The items are in order, and the limit is a word of 32 bits. -/
structure WellFormed (r : Scan) : Prop where
  values : Item.WellFormed r.values
  startKey : Item.WellFormed r.startKey
  limit : ∀ n ∈ r.limit, (Text.IntRange.signed 32).holds n = true

def slots (r : Scan) : List Slot :=
  [.always "TableName" Decoder.string (.string r.table),
    .optional "IndexName" Decoder.string r.index .string,
    .optional "FilterExpression" Decoder.string r.filter .string,
    .nonEmpty "ExpressionAttributeValues" Item.ofJson r.values Item.toJson,
    .optional "Limit" Decoder.int32 r.limit .int,
    .nonEmpty "ExclusiveStartKey" Item.ofJson r.startKey Item.toJson,
    .optional "ConsistentRead" Decoder.bool r.consistentRead .bool]

theorem layout {r : Scan} (hr : r.WellFormed) : Layout fields r.slots where
  fields_eq := rfl
  nodup := by decide
  restores := by
    simp only [slots, List.forall_mem_cons]
    exact ⟨Slot.restores_always rfl, Slot.restores_string _ _, Slot.restores_string _ _,
      Slot.restores_nonEmpty hr.values.ofJson_toJson Item.toJson_ne_empty,
      Slot.restores_int32 _ hr.limit,
      Slot.restores_nonEmpty hr.startKey.ofJson_toJson Item.toJson_ne_empty,
      Slot.restores_bool _ _, nofun⟩

theorem faithful : Faithful fields ofJson toJson WellFormed where
  reads r hr := by
    have h := layout hr
    refine bind_eq_ok_iff.mpr ⟨_, h.read _, ?_⟩
    refine bind_eq_ok_iff.mpr ⟨r.table, h.required 0 rfl rfl, ?_⟩
    refine bind_eq_ok_iff.mpr ⟨r.index, h.nullable 1 rfl (fun _ _ => rfl), ?_⟩
    refine bind_eq_ok_iff.mpr ⟨r.filter, h.nullable 2 rfl (fun _ _ => rfl), ?_⟩
    refine bind_eq_ok_iff.mpr ⟨r.values, h.defaulted 3 rfl hr.values.ofJson_toJson, ?_⟩
    refine bind_eq_ok_iff.mpr
      ⟨r.limit, h.nullable 4 rfl (fun n hn => Decoder.int32_eq_ok (hr.limit n hn)), ?_⟩
    refine bind_eq_ok_iff.mpr ⟨r.startKey, h.defaulted 5 rfl hr.startKey.ofJson_toJson, ?_⟩
    exact bind_eq_ok_iff.mpr ⟨r.consistentRead, h.nullable 6 rfl (fun _ _ => rfl), rfl⟩
  omits r hr := ⟨_, rfl, (layout hr).minimal⟩

end Scan

/-! ## Responses -/

namespace TableCreated

theorem layout (r : TableCreated) :
    Layout fields [.always "TableName" Decoder.string (.string r.table)] where
  fields_eq := rfl
  nodup := by decide
  restores := by
    simp only [List.forall_mem_cons]
    exact ⟨Slot.restores_always rfl, nofun⟩

theorem faithful : Faithful fields ofJson toJson fun _ => True where
  reads r _ := by
    have h := r.layout
    refine bind_eq_ok_iff.mpr ⟨_, h.read _, ?_⟩
    exact bind_eq_ok_iff.mpr ⟨r.table, h.required 0 rfl rfl, rfl⟩
  omits r _ := ⟨_, rfl, r.layout.minimal⟩

end TableCreated

theorem ItemPut.faithful : Faithful [] ofJson toJson fun _ => True where
  reads _ _ := rfl
  omits _ _ := ⟨[], rfl, nofun⟩

namespace ItemRead

theorem layout {r : ItemRead} (hr : ∀ item ∈ r.item, Item.WellFormed item) :
    Layout fields [.optional "Item" Item.ofJson r.item Item.toJson] where
  fields_eq := rfl
  nodup := by decide
  restores := by
    simp only [List.forall_mem_cons]
    exact ⟨Slot.restores_optional (fun item h => (hr item h).ofJson_toJson) (fun _ _ => nofun),
      nofun⟩

theorem faithful :
    Faithful fields ofJson toJson fun r => ∀ item ∈ r.item, Item.WellFormed item where
  reads r hr := by
    have h := layout hr
    refine bind_eq_ok_iff.mpr ⟨_, h.read _, ?_⟩
    exact bind_eq_ok_iff.mpr
      ⟨r.item, h.nullable 0 rfl (fun item hitem => (hr item hitem).ofJson_toJson), rfl⟩
  omits r hr := ⟨_, rfl, (layout hr).minimal⟩

end ItemRead

namespace PageRead

/-- The items are in order, and the counts are words of 32 bits. -/
structure WellFormed (r : PageRead) : Prop where
  items : ∀ item ∈ r.items, Item.WellFormed item
  count : (Text.IntRange.signed 32).holds r.count = true
  scannedCount : (Text.IntRange.signed 32).holds r.scannedCount = true
  lastKey : ∀ item ∈ r.lastKey, Item.WellFormed item

def slots (r : PageRead) : List Slot :=
  [.nonEmpty "Items" (Decoder.list Item.ofJson) r.items fun xs => .array (xs.map Item.toJson),
    .always "Count" Decoder.int32 (.int r.count),
    .always "ScannedCount" Decoder.int32 (.int r.scannedCount),
    .optional "LastEvaluatedKey" Item.ofJson r.lastKey Item.toJson]

variable {r : PageRead}

theorem WellFormed.items_eq_ok (hr : r.WellFormed) :
    Decoder.list Item.ofJson (.array (r.items.map Item.toJson)) = .ok r.items :=
  Decoder.elements_map fun item h => (hr.items item h).ofJson_toJson

theorem layout (hr : r.WellFormed) : Layout fields r.slots where
  fields_eq := rfl
  nodup := by decide
  restores := by
    simp only [slots, List.forall_mem_cons]
    exact ⟨Slot.restores_nonEmpty hr.items_eq_ok (by simp),
      Slot.restores_always (Decoder.int32_eq_ok hr.count),
      Slot.restores_always (Decoder.int32_eq_ok hr.scannedCount),
      Slot.restores_optional (fun item h => (hr.lastKey item h).ofJson_toJson)
        (fun _ _ => nofun), nofun⟩

theorem faithful (record : String) : Faithful fields (ofRecord record) toJson WellFormed where
  reads r hr := by
    have h := layout hr
    refine bind_eq_ok_iff.mpr ⟨_, h.read _, ?_⟩
    refine bind_eq_ok_iff.mpr ⟨r.items, h.defaulted 0 rfl hr.items_eq_ok, ?_⟩
    refine bind_eq_ok_iff.mpr ⟨r.count, h.required 1 rfl (Decoder.int32_eq_ok hr.count), ?_⟩
    refine bind_eq_ok_iff.mpr
      ⟨r.scannedCount, h.required 2 rfl (Decoder.int32_eq_ok hr.scannedCount), ?_⟩
    exact bind_eq_ok_iff.mpr
      ⟨r.lastKey, h.nullable 3 rfl (fun item hitem => (hr.lastKey item hitem).ofJson_toJson), rfl⟩
  omits r hr := ⟨_, rfl, (layout hr).minimal⟩

end PageRead

/-! ## The wire form -/

/-- The wire form is a faithful encoding.  A tagged value of any nesting is read back as it is, and
what is read is the tagged form of the result, an object counting as the map of its members; exactly
what is malformed, at whatever depth, is refused.  The requests, the responses and the parts of a
table's description are read back, and what is absent or empty is left out of them. -/
theorem wire_faithful :
    (∀ v : Value, v.WellFormed → Value.ofJson v.toJson = .ok v) ∧
    (∀ (j : Json) (v : Value), Value.ofJson j = .ok v → v.WellFormed ∧ v.toJson = j.sorted) ∧
    (∀ j : Json, (∃ e, Value.ofJson j = .error e) ↔ Value.Malformed j) ∧
    (∀ r : KeyRole, KeyRole.ofJson r.toJson = .ok r) ∧
    (∀ t : ScalarType, ScalarType.ofJson t.toJson = .ok t) ∧
    Faithful KeyElement.fields KeyElement.ofJson KeyElement.toJson (fun _ => True) ∧
    Faithful AttributeDefinition.fields AttributeDefinition.ofJson AttributeDefinition.toJson
      (fun _ => True) ∧
    Faithful IndexDefinition.fields IndexDefinition.ofJson IndexDefinition.toJson
      (fun _ => True) ∧
    Faithful CreateTable.fields CreateTable.ofJson CreateTable.toJson (fun _ => True) ∧
    Faithful PutItem.fields PutItem.ofJson PutItem.toJson (fun r => Item.WellFormed r.item) ∧
    Faithful GetItem.fields GetItem.ofJson GetItem.toJson (fun r => Item.WellFormed r.key) ∧
    Faithful Query.fields Query.ofJson Query.toJson Query.WellFormed ∧
    Faithful Scan.fields Scan.ofJson Scan.toJson Scan.WellFormed ∧
    Faithful TableCreated.fields TableCreated.ofJson TableCreated.toJson (fun _ => True) ∧
    Faithful [] ItemPut.ofJson ItemPut.toJson (fun _ => True) ∧
    Faithful ItemRead.fields ItemRead.ofJson ItemRead.toJson
      (fun r => ∀ item ∈ r.item, Item.WellFormed item) ∧
    Faithful PageRead.fields PageRead.ofQueryJson PageRead.toJson PageRead.WellFormed ∧
    Faithful PageRead.fields PageRead.ofScanJson PageRead.toJson PageRead.WellFormed := by
  refine ⟨fun v h => Value.ofJson_toJson h, fun j v h => Value.ofJson_sound h,
    fun j => Value.exists_error_iff, KeyRole.ofJson_toJson, ScalarType.ofJson_toJson,
    KeyElement.faithful, AttributeDefinition.faithful, IndexDefinition.faithful, ?_⟩
  refine ⟨CreateTable.faithful, PutItem.faithful, GetItem.faithful, Query.faithful,
    Scan.faithful, ?_⟩
  exact ⟨TableCreated.faithful, ItemPut.faithful, ItemRead.faithful,
    PageRead.faithful "QueryOutput", PageRead.faithful "ScanOutput"⟩

/-- A nested value, which has an empty set, a null marker and a number that is not written in the
shortest way, and a query that leaves its optional parts out. -/
theorem wire_faithful_nested :
    let v : Value := .map [("a", .list [.null false, .numberSet []]), ("n", .number "1.50")]
    let q : Query := ⟨"t", none, "k = :k", none, [(":k", v)], none, some 7, [], none⟩
    Value.ofJson v.toJson = .ok v ∧ v.toJson = v.toJson.sorted ∧ Query.ofJson q.toJson = .ok q := by
  intro v q
  have hv : v.WellFormed := by
    refine .map (by unfold NameMap.Ascending OrderedMap.Ascending; decide) ?_
    simp only [List.forall_mem_cons]
    refine ⟨.list ?_, .flat (by decide) (by decide), List.forall_mem_nil _⟩
    simp only [List.forall_mem_cons]
    exact ⟨.flat (by decide) (by decide), .flat (by decide) (by decide), List.forall_mem_nil _⟩
  have hq : q.WellFormed := by
    refine ⟨⟨List.pairwise_singleton _ _, ?_⟩, Item.wellFormed_nil, ?_⟩
    · simp only [q, List.forall_mem_cons]
      exact ⟨hv, List.forall_mem_nil _⟩
    · intro n hn
      cases hn
      decide
  obtain ⟨hread, hsound, -, -, -, -, -, -, -, -, -, hquery, -⟩ := wire_faithful
  exact ⟨hread v hv, (hsound _ v (hread v hv)).2, hquery.reads q hq⟩

end ItemStore
