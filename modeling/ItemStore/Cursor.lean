import ItemStore.Page

/-!
# Cursors

A cursor yields, one after another, the items of a sequence of pages, each of which is fetched
with the last key of the page before. A page is fetched only when all items of the page before
have been yielded, so at most one page is held. The cursor ends after a page without a key to go
on with, an empty key counting as none, and it ends at once after the first failure. `step`
does one thing, either fetching a page or reporting something; `next` takes steps until there is
something to report.
-/

namespace ItemStore

/-- What a cursor reports. -/
inductive Event (α ε : Type) where
  | item (v : α)
  | failure (e : ε)
  | finished
deriving DecidableEq

/-- Where a cursor stands. -/
structure Cursor where
  /-- The key after which the next page starts. -/
  startKey : Option Item
  /-- The items fetched and not yet yielded. -/
  buffer : List Item
  /-- No page follows the one that is held. -/
  exhausted : Bool
  /-- The cursor has ended. -/
  closed : Bool
deriving DecidableEq

namespace Cursor

variable {σ ε α : Type}

/-- A cursor before the first page. -/
def start : Cursor := ⟨none, [], false, false⟩

/-- A cursor that has ended. -/
def done : Cursor := ⟨none, [], true, true⟩

/-- A cursor that holds a page. -/
def holding (page : Page) : Cursor := ⟨page.lastKey, page.items, !page.hasMore, false⟩

/-- Take one step: yield the next item, fetch the next page, or end. A step that fetched a page
reports nothing. Fetching and parsing may change the state `σ`. -/
def step (fetch : Option Item → σ → Except ε Page × σ) (parse : Item → σ → Except ε α × σ)
    (c : Cursor) (s : σ) : Option (Event α ε) × Cursor × σ :=
  if c.closed then (some .finished, c, s)
  else match c.buffer with
    | item :: rest =>
        match parse item s with
        | (.ok v, s) => (some (.item v), { c with buffer := rest }, s)
        | (.error e, s) => (some (.failure e), done, s)
    | [] =>
        if c.exhausted then (some .finished, done, s)
        else match fetch c.startKey s with
          | (.ok page, s) => (none, holding page, s)
          | (.error e, s) => (some (.failure e), done, s)

/-- Take steps until there is something to report. The fuel bounds the number of steps; without
a report in so many steps the result has none. -/
def next (fetch : Option Item → σ → Except ε Page × σ) (parse : Item → σ → Except ε α × σ) :
    Nat → Cursor → σ → Option (Event α ε) × Cursor × σ
  | 0, c, s => (none, c, s)
  | fuel + 1, c, s =>
      match step fetch parse c s with
      | (some e, c, s) => (some e, c, s)
      | (none, c, s) => next fetch parse fuel c s

/-- The reports up to the end, without the end itself. The fuel bounds the number of steps; if it
does not reach to the end, the cursor that is left is not closed. -/
def drain (fetch : Option Item → σ → Except ε Page × σ) (parse : Item → σ → Except ε α × σ) :
    Nat → Cursor → σ → List (Event α ε) × Cursor × σ
  | 0, c, s => ([], c, s)
  | fuel + 1, c, s =>
      match step fetch parse c s with
      | (some .finished, c, s) => ([], c, s)
      | (some e, c, s) =>
          let (es, c, s) := drain fetch parse fuel c s
          (e :: es, c, s)
      | (none, c, s) => drain fetch parse fuel c s

end Cursor

end ItemStore
