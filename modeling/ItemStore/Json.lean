import ItemStore.Binary64.Shortest
import ItemStore.NameMap

/-!
# JSON values

A JSON number is an integer or a double. An object is the list of its members as they were
written, so that a name may occur twice; `Json.sorted` gives each object at most one member of a
name, the last one, and puts the members in the order of their names.
-/

namespace ItemStore

namespace Json

/-- A number: an integer of at most 64 bits, or a finite double. -/
inductive Number where
  | integer (i : Int)
  | double (x : Binary64)
deriving DecidableEq, Hashable

/-- The written form: an integer in decimal, a double in the exchange layout. -/
def Number.text : Number → String
  | .integer i => toString i
  | .double x => x.text Binary64.exchange

end Json

/-- A JSON value. -/
inductive Json where
  | null
  | bool (b : Bool)
  | number (n : Json.Number)
  | string (s : String)
  | array (elements : List Json)
  | object (members : List (String × Json))

namespace Json

/-- The name of the kind of a value. -/
def kind : Json → String
  | null => "null"
  | bool _ => "boolean"
  | number _ => "number"
  | string _ => "string"
  | array _ => "array"
  | object _ => "object"

/-- An integer as a value. -/
def int (i : Int) : Json := number (.integer i)

mutual

/-- The value with every object reduced to the last member of each name, in name order. -/
def sorted : Json → Json
  | array xs => array (sortedElements xs)
  | object ms => object (NameMap.ofEntries (sortedMembers ms))
  | null => null
  | bool b => bool b
  | number n => number n
  | string s => string s

def sortedElements : List Json → List Json
  | [] => []
  | x :: xs => sorted x :: sortedElements xs

def sortedMembers : List (String × Json) → List (String × Json)
  | [] => []
  | (name, x) :: ms => (name, sorted x) :: sortedMembers ms

end

/-- The last member of a name. -/
def member? (ms : List (String × Json)) (name : String) : Option Json :=
  (ms.reverse.find? fun m => m.1 == name).map (·.2)

end Json

end ItemStore
