import ItemStore.Decode.Record
import ItemStore.Request
import ItemStore.Value.Wire

/-!
# Exchanged forms of requests and responses

Each request and each response has a JSON form, a record with capitalised field names. What is
absent, and what is empty where emptiness is the default, is left out.
-/

namespace ItemStore

open Decode (Field Members)

/-- The members that are present. -/
def Json.present (ms : List (Option (String × Json))) : Json := .object (ms.filterMap id)

/-- A member that is always present. -/
def Json.always (name : String) (j : Json) : Option (String × Json) := some (name, j)

/-- A member that is present when there is a value. -/
def Json.optional {α : Type} (name : String) (v : Option α) (f : α → Json) :
    Option (String × Json) := v.map fun a => (name, f a)

/-- A member that is present when the list is not empty. -/
def Json.nonEmpty {α : Type} (name : String) (xs : List α) (f : List α → Json) :
    Option (String × Json) := if xs.isEmpty then none else some (name, f xs)

namespace KeyRole

def ofJson : Decoder KeyRole :=
  Decoder.variant ([partition, sort].map fun r => (r.text, r))

def toJson (r : KeyRole) : Json := .string r.text

end KeyRole

namespace ScalarType

def ofJson : Decoder ScalarType :=
  Decoder.variant ([string, number, binary].map fun t => (t.text, t))

def toJson (t : ScalarType) : Json := .string t.text

end ScalarType

namespace KeyElement

def fields : List Field :=
  [.required "AttributeName" Decoder.string, .required "KeyType" KeyRole.ofJson]

def ofJson : Decoder KeyElement := fun j => do
  let ms ← Members.read "KeySchemaElement" fields j
  let name ← ms.required "AttributeName" Decoder.string
  let role ← ms.required "KeyType" KeyRole.ofJson
  .ok ⟨name, role⟩

def toJson (e : KeyElement) : Json :=
  .object [("AttributeName", .string e.name), ("KeyType", e.role.toJson)]

end KeyElement

namespace AttributeDefinition

def fields : List Field :=
  [.required "AttributeName" Decoder.string, .required "AttributeType" ScalarType.ofJson]

def ofJson : Decoder AttributeDefinition := fun j => do
  let ms ← Members.read "AttributeDefinition" fields j
  let name ← ms.required "AttributeName" Decoder.string
  let type ← ms.required "AttributeType" ScalarType.ofJson
  .ok ⟨name, type⟩

def toJson (d : AttributeDefinition) : Json :=
  .object [("AttributeName", .string d.name), ("AttributeType", d.type.toJson)]

end AttributeDefinition

namespace IndexDefinition

def fields : List Field :=
  [.required "IndexName" Decoder.string, .required "KeySchema" (Decoder.list KeyElement.ofJson)]

def ofJson : Decoder IndexDefinition := fun j => do
  let ms ← Members.read "GlobalSecondaryIndex" fields j
  let index ← ms.required "IndexName" Decoder.string
  let key ← ms.required "KeySchema" (Decoder.list KeyElement.ofJson)
  .ok ⟨index, key⟩

def toJson (d : IndexDefinition) : Json :=
  .object [("IndexName", .string d.index), ("KeySchema", .array (d.key.map KeyElement.toJson))]

end IndexDefinition

namespace CreateTable

def fields : List Field :=
  [.required "TableName" Decoder.string,
    .required "KeySchema" (Decoder.list KeyElement.ofJson),
    .required "AttributeDefinitions" (Decoder.list AttributeDefinition.ofJson),
    .defaulted "GlobalSecondaryIndexes" (Decoder.list IndexDefinition.ofJson)]

def ofJson : Decoder CreateTable := fun j => do
  let ms ← Members.read "CreateTableInput" fields j
  let table ← ms.required "TableName" Decoder.string
  let key ← ms.required "KeySchema" (Decoder.list KeyElement.ofJson)
  let definitions ←
    ms.required "AttributeDefinitions" (Decoder.list AttributeDefinition.ofJson)
  let indexes ← ms.defaulted "GlobalSecondaryIndexes" [] (Decoder.list IndexDefinition.ofJson)
  .ok ⟨table, key, definitions, indexes⟩

def toJson (r : CreateTable) : Json :=
  .present [
    Json.always "TableName" (.string r.table),
    Json.always "KeySchema" (.array (r.key.map KeyElement.toJson)),
    Json.always "AttributeDefinitions" (.array (r.definitions.map AttributeDefinition.toJson)),
    Json.nonEmpty "GlobalSecondaryIndexes" r.indexes fun xs =>
      .array (xs.map IndexDefinition.toJson)]

end CreateTable

namespace PutItem

def fields : List Field :=
  [.required "TableName" Decoder.string, .required "Item" Item.ofJson]

def ofJson : Decoder PutItem := fun j => do
  let ms ← Members.read "PutItemInput" fields j
  let table ← ms.required "TableName" Decoder.string
  let item ← ms.required "Item" Item.ofJson
  .ok ⟨table, item⟩

def toJson (r : PutItem) : Json :=
  .object [("TableName", .string r.table), ("Item", Item.toJson r.item)]

end PutItem

namespace GetItem

def fields : List Field :=
  [.required "TableName" Decoder.string, .required "Key" Item.ofJson,
    .nullable "ConsistentRead" Decoder.bool]

def ofJson : Decoder GetItem := fun j => do
  let ms ← Members.read "GetItemInput" fields j
  let table ← ms.required "TableName" Decoder.string
  let key ← ms.required "Key" Item.ofJson
  let consistentRead ← ms.nullable "ConsistentRead" Decoder.bool
  .ok ⟨table, key, consistentRead⟩

def toJson (r : GetItem) : Json :=
  .present [
    Json.always "TableName" (.string r.table),
    Json.always "Key" (Item.toJson r.key),
    Json.optional "ConsistentRead" r.consistentRead .bool]

end GetItem

namespace Query

def fields : List Field :=
  [.required "TableName" Decoder.string,
    .nullable "IndexName" Decoder.string,
    .required "KeyConditionExpression" Decoder.string,
    .nullable "FilterExpression" Decoder.string,
    .defaulted "ExpressionAttributeValues" Item.ofJson,
    .nullable "ScanIndexForward" Decoder.bool,
    .nullable "Limit" Decoder.int32,
    .defaulted "ExclusiveStartKey" Item.ofJson,
    .nullable "ConsistentRead" Decoder.bool]

def ofJson : Decoder Query := fun j => do
  let ms ← Members.read "QueryInput" fields j
  let table ← ms.required "TableName" Decoder.string
  let index ← ms.nullable "IndexName" Decoder.string
  let keyCondition ← ms.required "KeyConditionExpression" Decoder.string
  let filter ← ms.nullable "FilterExpression" Decoder.string
  let values ← ms.defaulted "ExpressionAttributeValues" [] Item.ofJson
  let forward ← ms.nullable "ScanIndexForward" Decoder.bool
  let limit ← ms.nullable "Limit" Decoder.int32
  let startKey ← ms.defaulted "ExclusiveStartKey" [] Item.ofJson
  let consistentRead ← ms.nullable "ConsistentRead" Decoder.bool
  .ok ⟨table, index, keyCondition, filter, values, forward, limit, startKey, consistentRead⟩

def toJson (r : Query) : Json :=
  .present [
    Json.always "TableName" (.string r.table),
    Json.optional "IndexName" r.index .string,
    Json.always "KeyConditionExpression" (.string r.keyCondition),
    Json.optional "FilterExpression" r.filter .string,
    Json.nonEmpty "ExpressionAttributeValues" r.values Item.toJson,
    Json.optional "ScanIndexForward" r.forward .bool,
    Json.optional "Limit" r.limit .int,
    Json.nonEmpty "ExclusiveStartKey" r.startKey Item.toJson,
    Json.optional "ConsistentRead" r.consistentRead .bool]

end Query

namespace Scan

def fields : List Field :=
  [.required "TableName" Decoder.string,
    .nullable "IndexName" Decoder.string,
    .nullable "FilterExpression" Decoder.string,
    .defaulted "ExpressionAttributeValues" Item.ofJson,
    .nullable "Limit" Decoder.int32,
    .defaulted "ExclusiveStartKey" Item.ofJson,
    .nullable "ConsistentRead" Decoder.bool]

def ofJson : Decoder Scan := fun j => do
  let ms ← Members.read "ScanInput" fields j
  let table ← ms.required "TableName" Decoder.string
  let index ← ms.nullable "IndexName" Decoder.string
  let filter ← ms.nullable "FilterExpression" Decoder.string
  let values ← ms.defaulted "ExpressionAttributeValues" [] Item.ofJson
  let limit ← ms.nullable "Limit" Decoder.int32
  let startKey ← ms.defaulted "ExclusiveStartKey" [] Item.ofJson
  let consistentRead ← ms.nullable "ConsistentRead" Decoder.bool
  .ok ⟨table, index, filter, values, limit, startKey, consistentRead⟩

def toJson (r : Scan) : Json :=
  .present [
    Json.always "TableName" (.string r.table),
    Json.optional "IndexName" r.index .string,
    Json.optional "FilterExpression" r.filter .string,
    Json.nonEmpty "ExpressionAttributeValues" r.values Item.toJson,
    Json.optional "Limit" r.limit .int,
    Json.nonEmpty "ExclusiveStartKey" r.startKey Item.toJson,
    Json.optional "ConsistentRead" r.consistentRead .bool]

end Scan

namespace TableCreated

def fields : List Field := [.required "TableName" Decoder.string]

def ofJson : Decoder TableCreated := fun j => do
  let ms ← Members.read "CreateTableOutput" fields j
  let table ← ms.required "TableName" Decoder.string
  .ok ⟨table⟩

def toJson (r : TableCreated) : Json := .object [("TableName", .string r.table)]

end TableCreated

namespace ItemPut

def ofJson : Decoder ItemPut := fun j => do
  let _ ← Members.read "PutItemOutput" [] j
  .ok {}

def toJson (_ : ItemPut) : Json := .object []

end ItemPut

namespace ItemRead

def fields : List Field := [.nullable "Item" Item.ofJson]

def ofJson : Decoder ItemRead := fun j => do
  let ms ← Members.read "GetItemOutput" fields j
  let item ← ms.nullable "Item" Item.ofJson
  .ok ⟨item⟩

def toJson (r : ItemRead) : Json := .present [Json.optional "Item" r.item Item.toJson]

end ItemRead

namespace PageRead

def fields : List Field :=
  [.defaulted "Items" (Decoder.list Item.ofJson),
    .required "Count" Decoder.int32,
    .required "ScannedCount" Decoder.int32,
    .nullable "LastEvaluatedKey" Item.ofJson]

/-- Read an answer that messages call by the given record name. -/
def ofRecord (record : String) : Decoder PageRead := fun j => do
  let ms ← Members.read record fields j
  let items ← ms.defaulted "Items" [] (Decoder.list Item.ofJson)
  let count ← ms.required "Count" Decoder.int32
  let scannedCount ← ms.required "ScannedCount" Decoder.int32
  let lastKey ← ms.nullable "LastEvaluatedKey" Item.ofJson
  .ok ⟨items, count, scannedCount, lastKey⟩

/-- Read the answer to a query. -/
def ofQueryJson : Decoder PageRead := ofRecord "QueryOutput"

/-- Read the answer to a scan. -/
def ofScanJson : Decoder PageRead := ofRecord "ScanOutput"

def toJson (r : PageRead) : Json :=
  .present [
    Json.nonEmpty "Items" r.items fun xs => .array (xs.map Item.toJson),
    Json.always "Count" (.int r.count),
    Json.always "ScannedCount" (.int r.scannedCount),
    Json.optional "LastEvaluatedKey" r.lastKey Item.toJson]

end PageRead

end ItemStore
