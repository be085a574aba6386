import ItemStore.Text.Blank
import ItemStore.Text.Integer

/-!
# Settings

The defaults of a repository and of a store, read from texts such as environment variables. A
page size is a positive integer, with white space around it; anything else sets nothing. A
switch is on for a few spellings of yes and off for everything else.
-/

namespace ItemStore

/-- The defaults for the requests of a repository. -/
structure RepositorySettings where
  /-- The number of items asked for in a page; without it the store decides. -/
  pageSize : Option Nat := none
  /-- Whether reads are to be strongly consistent. -/
  consistentRead : Bool := false
deriving DecidableEq, Repr

namespace Settings

/-- A positive integer of a range, with white space around it. -/
def pageSize (range : Text.IntRange) (text : Option String) : Option Nat := do
  let i ← range.read (Text.trim (← text))
  if 0 < i then some i.toNat else none

/-- Whether the text switches something on. -/
def isOn (text : String) : Bool := ["1", "true", "yes", "TRUE", "YES"].contains text

end Settings

/-- The settings that two texts give, the page size as an unsigned 32-bit integer. -/
def RepositorySettings.ofTexts (pageSize consistentRead : Option String) : RepositorySettings where
  pageSize := Settings.pageSize (.unsigned 32) pageSize
  consistentRead := (consistentRead.map Settings.isOn).getD false

/-- The page limit of a store that a text gives, an unsigned 64-bit integer. -/
def Settings.storePageSize (text : Option String) : Option Nat :=
  pageSize (.unsigned 64) text

end ItemStore
