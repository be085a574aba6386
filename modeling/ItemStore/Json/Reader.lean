import ItemStore.Json.Token

/-!
# Reading JSON

A reader takes the tokens of a text one after another. It holds the containers that are open,
innermost first, and what it expects next; it fails at a token that it does not expect. The text
is well formed when the tokens end with a tree complete and no container open. Containers that
nest more than 127 deep are flawed. A text denotes a value when its tree has no flaw.
-/

namespace ItemStore.Json

/-- An open container with what has been read of it, last part first. -/
inductive Frame where
  | array (elements : List Source)
  | object (members : List (Except Flaw String × Source)) (name : Except Flaw String)

/-- What may come next. -/
inductive Expected where
  /-- A value. -/
  | value
  /-- An element or the end of an array just opened. -/
  | elementOrEnd
  /-- A member name or the end of an object just opened. -/
  | nameOrEnd
  /-- A member name. -/
  | name
  /-- The colon after a member name. -/
  | colon
  /-- A comma or the end of the innermost container. -/
  | separator
  /-- Nothing: the tree is complete. -/
  | nothing (v : Source)

/-- A reader between two tokens. -/
structure Reader where
  frames : List Frame
  expected : Expected

namespace Reader

/-- The number of containers that may be open at once. -/
def depthLimit : Nat := 127

/-- A reader before the first token. -/
def start : Reader := ⟨[], .value⟩

/-- Hand a complete value to the innermost container. -/
def complete (frames : List Frame) (v : Source) : Reader :=
  match frames with
  | [] => ⟨[], .nothing v⟩
  | .array elements :: rest => ⟨.array (v :: elements) :: rest, .separator⟩
  | .object members name :: rest => ⟨.object ((name, v) :: members) (.ok "") :: rest, .separator⟩

/-- Open a container. -/
def enter (frames : List Frame) : Container → Reader
  | .array => ⟨.array [] :: frames, .elementOrEnd⟩
  | .object => ⟨.object [] (.ok "") :: frames, .nameOrEnd⟩

/-- Take the beginning of a value. -/
def takeValue (frames : List Frame) : Token → Option Reader
  | .opening c => some (enter frames c)
  | .text s => some (complete frames (.ofText s))
  | .scalar v => some (complete frames v)
  | _ => none

/-- Take a member name. -/
def takeName (frames : List Frame) : Token → Option Reader
  | .text s =>
      match frames with
      | .object members _ :: rest => some ⟨.object members s :: rest, .colon⟩
      | _ => none
  | _ => none

/-- A container inside the given frames, which is flawed when they are too many. -/
def nested (frames : List Frame) (c : Container) (v : Source) : Source :=
  if (frames.drop (depthLimit - 1)).isEmpty then v else .tooDeep c

/-- Close the innermost container. -/
def close (frames : List Frame) (c : Container) : Option Reader :=
  match frames, c with
  | .array elements :: rest, .array =>
      some (complete rest (nested rest .array (.array elements.reverse)))
  | .object members _ :: rest, .object =>
      some (complete rest (nested rest .object (.object members.reverse)))
  | _, _ => none

/-- Take the next token. -/
def step (r : Reader) (t : Token) : Option Reader :=
  match r.expected, t with
  | .value, t => takeValue r.frames t
  | .elementOrEnd, .closing .array => close r.frames .array
  | .elementOrEnd, t => takeValue r.frames t
  | .nameOrEnd, .closing .object => close r.frames .object
  | .nameOrEnd, t => takeName r.frames t
  | .name, t => takeName r.frames t
  | .colon, .colon => some ⟨r.frames, .value⟩
  | .separator, .closing c => close r.frames c
  | .separator, .comma =>
      match r.frames with
      | .array _ :: _ => some ⟨r.frames, .value⟩
      | .object _ _ :: _ => some ⟨r.frames, .name⟩
      | [] => none
  | _, _ => none

end Reader

/-- The tree of a sequence of tokens. -/
def Source.ofTokens? (ts : List Token) : Option Source := do
  let r ← ts.foldlM Reader.step Reader.start
  match r.expected with
  | .nothing v => some v
  | _ => none

/-- The tree of a text, its members in text order and with repetitions; `none` when the text is
ill-formed. -/
def Source.ofText? (text : String) : Option Source := (Token.ofText? text).bind Source.ofTokens?

/-- The value that a text denotes, its members in text order and with repetitions. -/
def ofText? (text : String) : Option Json := (Source.ofText? text).bind Source.toJson?

end ItemStore.Json
