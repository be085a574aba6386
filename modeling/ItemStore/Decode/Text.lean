import ItemStore.Decode

/-!
# Reading typed data from JSON texts

A reader of a text sees the tree of the text from its start to its end and fails at the first
part that does not fit. A part without a value is such a part only where the reader comes to it:
at a member name, at a scalar, and at the beginning of a container of the wanted kind.
-/

namespace ItemStore

/-- A reader of typed data from the tree of a text. -/
abbrev TextDecoder (α : Type) := Json.Source → Except DecodeError α

namespace TextDecoder

open Json (Flaw Source)

variable {α : Type}

/-- A part that must have a value. -/
def sound : Except Flaw α → Except DecodeError α := Except.mapError .flaw

/-- What a part of a text is, as far as a message tells it. -/
def found : Source → Except Flaw Found
  | .null => .ok .null
  | .bool b => .ok (.bool b)
  | .number n => .ok (.number n)
  | .string s => .ok (.string s)
  | .array _ | .tooDeep .array => .ok .sequence
  | .object _ | .tooDeep .object => .ok .map
  | .flawed f => .error f

/-- Fail because another type was expected. A scalar without a value is a flaw first. -/
def mismatch (expected : String) : TextDecoder α := fun j => do
  let f ← sound (found j)
  .error (.invalidType f expected)

def string : TextDecoder String
  | .string s => .ok s
  | j => mismatch "a string" j

/-- Read all elements in order. -/
def elements (d : TextDecoder α) : List Source → Except DecodeError (List α)
  | [] => .ok []
  | x :: xs => do
      let v ← d x
      let vs ← elements d xs
      .ok (v :: vs)

def list (d : TextDecoder α) : TextDecoder (List α)
  | .array xs => elements d xs
  | .tooDeep .array => .error (.flaw .depth)
  | j => mismatch "a sequence" j

/-- Read all members in order; of two members with one name the later one counts. -/
def entries (d : TextDecoder α) :
    List (Except Flaw String × Source) → Except DecodeError (List (String × α))
  | [] => .ok []
  | (name, x) :: ms => do
      let name ← sound name
      let v ← d x
      let vs ← entries d ms
      .ok ((name, v) :: vs)

def map (d : TextDecoder α) : TextDecoder (NameMap α)
  | .object ms => (entries d ms).map NameMap.ofEntries
  | .tooDeep .object => .error (.flaw .depth)
  | j => mismatch "a map" j

/-- Read a text. -/
def run (d : TextDecoder α) (text : String) : Except DecodeError α :=
  match Source.ofText? text with
  | none => .error .malformed
  | some j => d j

end TextDecoder

end ItemStore
