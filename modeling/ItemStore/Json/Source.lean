import ItemStore.Json

/-!
# JSON texts before their parts are evaluated

A text may be well formed and still hold parts without a value: a number too large for a double,
a string with half a surrogate pair, a container that is nested too deeply. Such a part is a
failure only for a reader that comes to it, since a reader that fails earlier never sees it. A
`Source` is the tree of a well-formed text in which every part without a value is kept with its
flaw. `Source.toJson?` gives the value of a tree without flaws, and `Source.ofJson` is the tree
of a value.
-/

namespace ItemStore.Json

/-- Why a well-formed part of a text has no value. -/
inductive Flaw where
  /-- A number too large for a double. -/
  | numberRange
  /-- The first half of a surrogate pair that no escape by code unit follows. -/
  | brokenPair
  /-- Half of a surrogate pair in the place of the other half, or by itself. -/
  | loneSurrogate
  /-- A container that is nested too deeply. -/
  | depth
deriving DecidableEq

def Flaw.message : Flaw → String
  | numberRange => "number out of range"
  | brokenPair => "unexpected end of hex escape"
  | loneSurrogate => "lone leading surrogate in hex escape"
  | depth => "recursion limit exceeded"

/-- A bracketed construct. -/
inductive Container where
  | array
  | object
deriving DecidableEq

/-- The tree of a well-formed text. -/
inductive Source where
  | null
  | bool (b : Bool)
  | number (n : Number)
  | string (s : String)
  | array (elements : List Source)
  | object (members : List (Except Flaw String × Source))
  /-- A number or a string without a value. -/
  | flawed (f : Flaw)
  /-- A container that is nested too deeply. -/
  | tooDeep (c : Container)

namespace Source

/-- The tree of a string. -/
def ofText : Except Flaw String → Source
  | .ok s => string s
  | .error f => flawed f

/-- The tree of a number. -/
def ofNumber : Except Flaw Number → Source
  | .ok n => number n
  | .error f => flawed f

mutual

/-- The tree of a value. -/
def ofJson : Json → Source
  | .null => null
  | .bool b => bool b
  | .number n => number n
  | .string s => string s
  | .array xs => array (ofElements xs)
  | .object ms => object (ofMembers ms)

def ofElements : List Json → List Source
  | [] => []
  | x :: xs => ofJson x :: ofElements xs

def ofMembers : List (String × Json) → List (Except Flaw String × Source)
  | [] => []
  | (name, x) :: ms => (.ok name, ofJson x) :: ofMembers ms

end

mutual

/-- The value of a tree without flaws. -/
def toJson? : Source → Option Json
  | null => some .null
  | bool b => some (.bool b)
  | number n => some (.number n)
  | string s => some (.string s)
  | array xs => (elements? xs).map .array
  | object ms => (members? ms).map .object
  | flawed _ => none
  | tooDeep _ => none

def elements? : List Source → Option (List Json)
  | [] => some []
  | x :: xs => do
      let v ← toJson? x
      let vs ← elements? xs
      some (v :: vs)

def members? : List (Except Flaw String × Source) → Option (List (String × Json))
  | [] => some []
  | (name, x) :: ms => do
      let name ← name.toOption
      let v ← toJson? x
      let vs ← members? ms
      some ((name, v) :: vs)

end

end Source

end ItemStore.Json
