import ItemStore.PrimaryKey
import ItemStore.Validation

/-!
# Entities

An entity is a kind of thing that is kept in items. It says how a draft is validated, how a
validated value is laid out as an item and read back, and which attributes are its key.
-/

namespace ItemStore

/-- How values of type `Out`, submitted as drafts, are kept in items. -/
structure Entity (Draft Out : Type) where
  /-- Validate a draft and fill in defaults. The text is fresh and serves to make up an
  identifier where the draft has none. -/
  validate : String → Draft → Except SchemaViolation Out
  /-- Read a value from an item and validate it. -/
  parse : Item → Except SchemaViolation Out
  /-- Lay a value out as an item, key attributes included. -/
  toItem : Out → Except SchemaViolation Item
  /-- The key of a value. -/
  key : Out → PrimaryKey

end ItemStore
