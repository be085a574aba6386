import ItemStore.Key

/-!
# Pages

A page is a run of items read together, with the key to go on after it. Pages are cut out of a
view, which lists items with their positions: what is not beyond the start position is skipped,
and at most as many items as the limit says are taken.
-/

namespace ItemStore

/-- Items read together. `lastKey` is the key of the last one, set when the page was cut off by
its limit. -/
structure Page where
  items : List Item
  lastKey : Option Item
deriving DecidableEq

namespace Page

/-- No items, and nothing to go on with. -/
def empty : Page := ⟨[], none⟩

/-- Whether another page may follow. An empty key counts as none. -/
def hasMore (p : Page) : Bool :=
  match p.lastKey with
  | some key => !key.isEmpty
  | none => false

end Page

/-- Items with their positions. -/
abbrev View := List (Position × Item)

namespace View

/-- The view in increasing order of the positions; items with equal positions keep their
order. -/
def sort (view : View) : View := List.mergeSort view fun a b => Position.le a.1 b.1

/-- Whether a position lies beyond the start in reading order. -/
def beyond (forward : Bool) (start : Option Position) (p : Position) : Bool :=
  match start with
  | none => true
  | some s => Position.compare p s == if forward then .gt else .lt

/-- Items up to a limit. -/
def upTo {α : Type} (limit : Option Nat) (xs : List α) : List α :=
  match limit with
  | none => xs
  | some n => xs.take n

/-- Whether so many items reach the limit. -/
def reaches (limit : Option Nat) (count : Nat) : Bool :=
  match limit with
  | none => false
  | some n => count == n

/-- Cut one page out of a view in order, read forward or backward. The second part tells whether
the limit was reached. -/
def page (view : View) (start : Option Position) (forward : Bool) (limit : Option Nat) :
    List Item × Bool :=
  let ordered := if forward then view else view.reverse
  let items := (upTo limit (ordered.filter fun e => beyond forward start e.1)).map (·.2)
  (items, reaches limit items.length)

end View

/-- The page of the items, whose last one gives the key when the limit was reached. -/
def Page.ofItems (items : List Item) (full : Bool) (keyOf : Item → Item) : Page :=
  ⟨items, if full then items.getLast?.map keyOf else none⟩

end ItemStore
