import ItemStore.Decode
import ItemStore.Key.Condition

/-!
# Errors of a store

Every failure of a store has a code of a fixed set and a message. Only a fault of the store
itself is worth a retry; all other codes blame the request.
-/

namespace ItemStore

/-- The codes of a store's failures. -/
inductive StoreErrorCode where
  | resourceNotFound
  | resourceInUse
  | validation
  | serialization
  | internal
deriving DecidableEq, Repr

namespace StoreErrorCode

/-- The name of the code. -/
def text : StoreErrorCode → String
  | resourceNotFound => "ResourceNotFoundException"
  | resourceInUse => "ResourceInUseException"
  | validation => "ValidationException"
  | serialization => "SerializationException"
  | internal => "InternalServerError"

/-- All codes. -/
def all : List StoreErrorCode :=
  [resourceNotFound, resourceInUse, validation, serialization, internal]

/-- The code with a name. -/
def ofText? (s : String) : Option StoreErrorCode := all.find? fun c => c.text == s

/-- The code of a failure of which nothing else is known. -/
def default : StoreErrorCode := validation

/-- Whether a request that failed with this code may be sent again. -/
def isRetryable : StoreErrorCode → Bool
  | internal => true
  | _ => false

end StoreErrorCode

/-- Why a key cannot be declared. -/
inductive KeySchemaError where
  /-- The elements are not one partition key and at most one sort key after it. -/
  | badShape
  | sameAttribute
  | undefinedAttribute (name : String)
deriving DecidableEq, Repr

namespace KeySchemaError

def message : KeySchemaError → String
  | badShape => "KeySchema must be one HASH element optionally followed by one RANGE element"
  | sameAttribute => "Partition key and sort key must be different attributes"
  | undefinedAttribute name =>
      "Key attribute " ++ name ++ " is not defined in AttributeDefinitions"

end KeySchemaError

/-- A failure of a store. -/
inductive StoreError where
  | emptyTableName
  | keySchema (e : KeySchemaError)
  | duplicateIndex (name : String)
  | tableExists (name : String)
  | tableNotFound (name : String)
  | indexNotFound (name : String)
  /-- A key with more or fewer attributes than the table's key. -/
  | keyMismatch
  | nonPositiveLimit
  | expression (e : ExpressionError)
  | keyCondition (e : KeyConditionError)
  | key (e : KeyError)
  /-- Items for a table that could not be read. -/
  | unreadableItems (table : String) (e : DecodeError)
  /-- A failure reported with a code and a message of its own, and perhaps with the text of its
  cause. -/
  | reported (code : StoreErrorCode) (message : String) (source : Option String)
deriving DecidableEq

namespace StoreError

def code : StoreError → StoreErrorCode
  | tableExists _ => .resourceInUse
  | tableNotFound _ => .resourceNotFound
  | unreadableItems _ _ => .serialization
  | reported c _ _ => c
  | _ => .validation

def message : StoreError → String
  | emptyTableName => "TableName must not be empty"
  | keySchema e => e.message
  | duplicateIndex name => "Duplicate index name: " ++ name
  | tableExists name => "Table already exists: " ++ name
  | tableNotFound name => "Requested resource not found: Table: " ++ name ++ " not found"
  | indexNotFound name => "The table does not have the specified index: " ++ name
  | keyMismatch => "The provided key element does not match the schema"
  | nonPositiveLimit => "Limit must be greater than 0"
  | expression e => "Invalid expression: " ++ e.message
  | keyCondition e => e.message
  | key e => e.message
  | unreadableItems table e => "Failed to parse items for " ++ table ++ ": " ++ e.message
  | reported _ message _ => message

/-- The code and the message. -/
def display (e : StoreError) : String := e.code.text ++ ": " ++ e.message

/-- The text of the failure that caused this one. -/
def source? : StoreError → Option String
  | reported _ _ source => source
  | _ => none

/-- A failure reported with a code; without a message the code's name stands for it. -/
def ofCode (code : StoreErrorCode) (message : Option String) : StoreError :=
  reported code (message.getD code.text) none

/-- The failure with a cause attached. -/
def withSource (e source : StoreError) : StoreError :=
  reported e.code e.message (some source.display)

end StoreError

end ItemStore
