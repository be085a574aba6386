import ItemStore.Cursor
import Mathlib.Data.List.Induction

/-!
# What a cursor may have done

While a cursor is polled, the calls of its fetcher and of its parser are noted in a history, with
their results, and so are its reports.  `History.Allowed` says what may happen after a history, and
leaves open nothing but the results of the calls: a page is fetched only when the items of all pages
before it have been yielded, and an item is parsed only when it is the next one to be yielded.  In a
lawful history, what a call asks for is reported at once (`Lawful.reported`), and when it is over
nothing is called any more (`Over.after`).
-/

namespace ItemStore

/-- Whether nothing comes after a report. -/
def Event.isEnd {α ε : Type} : Event α ε → Bool
  | .item _ => false
  | .failure _ | .finished => true

/-- The value that is yielded. -/
def Event.value? {α ε : Type} : Event α ε → Option α
  | .item v => some v
  | .failure _ | .finished => none

/-- What happens while a cursor is polled: a call with its result, or a report. -/
inductive Happening (α ε : Type) where
  | fetch (start : Option Item) (result : Except ε Page)
  | parse (item : Item) (result : Except ε α)
  | report (e : Event α ε)

namespace Happening

variable {α ε : Type}

/-- The page fetched. -/
def page? : Happening α ε → Option Page
  | fetch _ (.ok page) => some page
  | _ => none

/-- The item given to the parser, with the result. -/
def parse? : Happening α ε → Option (Item × Except ε α)
  | parse item result => some (item, result)
  | _ => none

def report? : Happening α ε → Option (Event α ε)
  | report e => some e
  | _ => none

/-- What is to be reported next: the value parsed, or the failure of a call. -/
def due? : Happening α ε → Option (Event α ε)
  | fetch _ (.error e) => some (.failure e)
  | parse _ (.ok v) => some (.item v)
  | parse _ (.error e) => some (.failure e)
  | _ => none

end Happening

/-- What has happened, the earliest first. -/
abbrev History (α ε : Type) := List (Happening α ε)

namespace History

variable {α ε : Type}

/-- The pages fetched. -/
def pages (h : History α ε) : List Page := h.filterMap Happening.page?

/-- The items of the pages fetched. -/
def items (h : History α ε) : List Item := (pages h).flatMap (·.items)

/-- The items given to the parser, with the results. -/
def parses (h : History α ε) : List (Item × Except ε α) := h.filterMap Happening.parse?

def reports (h : History α ε) : List (Event α ε) := h.filterMap Happening.report?

/-- What is to be reported next. -/
def due? (h : History α ε) : Option (Event α ε) := h.getLast?.bind Happening.due?

/-- The key of the last page fetched, if there is one. -/
def lastKey (h : History α ε) : Option Item := (pages h).getLast?.bind (·.lastKey)

/-- These items have been parsed, in this order and no others, and their values have been reported,
and nothing else. -/
def Yielded (h : History α ε) (xs : List Item) : Prop :=
  ∃ vs : List (Item × α), vs.map (·.1) = xs ∧ parses h = vs.map (fun v => (v.1, .ok v.2)) ∧
    reports h = vs.map fun v => .item v.2

/-- A failure or the end has been reported. -/
def Ended (h : History α ε) : Prop := ∃ e ∈ reports h, e.isEnd = true

/-- Either the end has been reported, or every item of the pages has been yielded and the last page
is not followed by another. -/
def Over (h : History α ε) : Prop :=
  Ended h ∨ Yielded h (items h) ∧ ∃ page, (pages h).getLast? = some page ∧ page.hasMore = false

/-- What may happen after a history.  A page is fetched from where the last one ended, when all
items have been yielded and all pages are followed by another.  An item is parsed when all items
before it have been yielded.  What a call asks for is reported before anything else happens. -/
def Allowed (h : History α ε) : Happening α ε → Prop
  | .fetch start _ => due? h = none ∧ start = lastKey h ∧ Yielded h (items h) ∧
      ∀ page ∈ pages h, page.hasMore = true
  | .parse item _ => due? h = none ∧ ∃ xs rest, items h = xs ++ item :: rest ∧ Yielded h xs
  | .report e => due? h = some e ∨ due? h = none ∧ e = .finished ∧ Over h

/-- Everything that has happened was allowed when it happened. -/
def Lawful (h : History α ε) : Prop := ∀ before x after, h = before ++ x :: after → Allowed before x

/-- The items are parsed in the order of the pages, and the values are yielded in that order. -/
def InOrder (h : History α ε) : Prop :=
  (parses h).map (·.1) <+: items h ∧
    (reports h).filterMap Event.value? = (parses h).filterMap fun p => p.2.toOption

variable {h : History α ε} {x : Happening α ε}

/-! ## One happening more -/

@[simp] theorem pages_concat : pages (h ++ [x]) = pages h ++ x.page?.toList := by
  cases hx : x.page? <;> simp [pages, hx]

@[simp] theorem items_concat :
    items (h ++ [x]) = items h ++ x.page?.toList.flatMap (·.items) := by
  simp [items]

@[simp] theorem parses_concat : parses (h ++ [x]) = parses h ++ x.parse?.toList := by
  cases hx : x.parse? <;> simp [parses, hx]

@[simp] theorem reports_concat : reports (h ++ [x]) = reports h ++ x.report?.toList := by
  cases hx : x.report? <;> simp [reports, hx]

@[simp] theorem due?_concat : due? (h ++ [x]) = x.due? := by simp [due?]

theorem Lawful.nil : Lawful ([] : History α ε) := by
  intro before x after hsplit
  simp at hsplit

theorem Lawful.concat (hl : Lawful h) (hx : Allowed h x) : Lawful (h ++ [x]) := by
  intro before y after hsplit
  rcases List.eq_nil_or_concat after with rfl | ⟨after, z, rfl⟩
  · obtain ⟨rfl, hy⟩ := List.append_inj' hsplit rfl
    cases hy
    exact hx
  · rw [List.concat_eq_append, ← List.cons_append, ← List.append_assoc] at hsplit
    exact hl before y after (List.append_inj' hsplit rfl).1

theorem Lawful.of_append {after : History α ε} (hl : Lawful (h ++ after)) : Lawful h := by
  intro before x rest hsplit
  exact hl before x (rest ++ after) (by simp [hsplit])

/-! ## What has been yielded -/

/-- A fetch yields nothing. -/
theorem Yielded.fetch {xs : List Item} (hy : Yielded h xs) (start : Option Item)
    (result : Except ε Page) : Yielded (h ++ [.fetch start result]) xs := by
  obtain ⟨vs, hxs, hparses, hreports⟩ := hy
  exact ⟨vs, hxs, by simp [hparses, Happening.parse?], by simp [hreports, Happening.report?]⟩

/-- One more item has been yielded when it has been parsed and its value has been reported. -/
theorem Yielded.item {xs : List Item} (hy : Yielded h xs) (item : Item) (v : α) :
    Yielded (h ++ [.parse item (.ok v)] ++ [.report (.item v)]) (xs ++ [item]) := by
  obtain ⟨vs, rfl, hparses, hreports⟩ := hy
  refine ⟨vs ++ [(item, v)], List.map_append, ?_, ?_⟩
  · rw [parses_concat, parses_concat, hparses, List.map_append]
    simp [Happening.parse?]
  · rw [reports_concat, reports_concat, hreports, List.map_append]
    simp [Happening.report?]

theorem Yielded.not_ended {xs : List Item} (hy : Yielded h xs) : ¬ Ended h := by
  rintro ⟨e, he, hend⟩
  obtain ⟨vs, -, -, hreports⟩ := hy
  rw [hreports] at he
  obtain ⟨v, -, rfl⟩ := List.mem_map.mp he
  cases hend

theorem Yielded.inOrder {xs : List Item} (hy : Yielded h xs) (hxs : xs <+: items h) :
    InOrder h := by
  obtain ⟨vs, rfl, hparses, hreports⟩ := hy
  refine ⟨?_, ?_⟩
  · rw [hparses, List.map_map]
    exact hxs
  · rw [hparses, hreports, List.filterMap_map, List.filterMap_map]
    rfl

theorem InOrder.fetch (hi : InOrder h) (start : Option Item) (result : Except ε Page) :
    InOrder (h ++ [.fetch start result]) := by
  refine ⟨?_, ?_⟩
  · rw [parses_concat, items_concat]
    simpa [Happening.parse?] using hi.1.trans (List.prefix_append _ _)
  · simpa [Happening.parse?, Happening.report?] using hi.2

/-- A report that yields no value leaves the order as it is. -/
theorem InOrder.report (hi : InOrder h) {e : Event α ε} (he : e.isEnd = true) :
    InOrder (h ++ [.report e]) := by
  refine ⟨by simpa [Happening.parse?, Happening.page?] using hi.1, ?_⟩
  have hvalue : e.value? = none := by cases e <;> first | rfl | cases he
  simpa [Happening.parse?, Happening.report?, hvalue] using hi.2

/-- An item that cannot be parsed is the next one, and yields nothing. -/
theorem Yielded.inOrder_failed {xs rest : List Item} {item : Item} {e : ε} (hy : Yielded h xs)
    (hitems : items h = xs ++ item :: rest) : InOrder (h ++ [.parse item (.error e)]) := by
  have hi : InOrder h := hy.inOrder ⟨_, hitems.symm⟩
  obtain ⟨vs, rfl, hparses, -⟩ := hy
  refine ⟨?_, ?_⟩
  · rw [parses_concat, items_concat, hitems, hparses]
    exact ⟨rest, by simp [Happening.parse?, Happening.page?]⟩
  · simpa [Happening.parse?, Happening.report?, Except.toOption] using hi.2

/-! ## After the end -/

theorem ended_report {e : Event α ε} (he : e.isEnd = true) : Ended (h ++ [.report e]) :=
  ⟨e, by simp [Happening.report?], he⟩

theorem Yielded.eq {xs : List Item} (hy : Yielded h xs) : xs = (parses h).map (·.1) := by
  obtain ⟨vs, rfl, hparses, -⟩ := hy
  rw [hparses, List.map_map]
  rfl

/-- When it is over, nothing is called, and nothing but the end is reported. -/
theorem Allowed.eq_finished (hx : Allowed h x) (ho : Over h) (hdue : due? h = none) :
    x = .report .finished := by
  cases x with
  | fetch start result =>
      obtain ⟨-, -, hy, hmore⟩ := hx
      rcases ho with he | ⟨-, page, hlast, hno⟩
      · exact absurd he hy.not_ended
      · rw [hmore page (List.mem_of_getLast? hlast)] at hno
        cases hno
  | parse item result =>
      obtain ⟨-, xs, rest, hitems, hy⟩ := hx
      rcases ho with he | ⟨hall, -⟩
      · exact absurd he hy.not_ended
      · have hxs : items h = xs := hall.eq.trans hy.eq.symm
        rw [hxs] at hitems
        simp at hitems
  | report e =>
      rcases hx with hsome | ⟨-, rfl, -⟩
      · rw [hdue] at hsome
        cases hsome
      · rfl

/-- What happens when it is over. -/
theorem Over.after {before after : History α ε} (ho : Over before) (hdue : due? before = none)
    (hl : Lawful (before ++ after)) :
    (∀ x ∈ after, x = .report .finished) ∧ Over (before ++ after) ∧
      due? (before ++ after) = none := by
  induction after using List.reverseRecOn with
  | nil => exact ⟨fun x hx => absurd hx List.not_mem_nil, by simpa using ho, by simpa using hdue⟩
  | append_singleton after x ih =>
      have hl' : Lawful (before ++ after ++ [x]) := by simpa using hl
      obtain ⟨hafter, hover, hdue'⟩ := ih hl'.of_append
      obtain rfl : x = .report .finished := (hl' _ x [] rfl).eq_finished hover hdue'
      rw [← List.append_assoc]
      refine ⟨?_, Or.inl (ended_report rfl), due?_concat⟩
      intro y hy
      rcases List.mem_append.mp hy with hy | hy
      · exact hafter y hy
      · exact List.mem_singleton.mp hy

/-- What a call asks for is reported next, where something has happened since. -/
theorem Lawful.reported {before after : History α ε} {e : Event α ε}
    (hl : Lawful (before ++ x :: after)) (hx : x.due? = some e)
    (hdue : due? (before ++ x :: after) = none) : ∃ rest, after = .report e :: rest := by
  have hsome : due? (before ++ [x]) = some e := due?_concat.trans hx
  cases after with
  | nil =>
      rw [hsome] at hdue
      cases hdue
  | cons y rest =>
      have hy : Allowed (before ++ [x]) y := hl _ y rest (by simp)
      cases y with
      | fetch start result =>
          rw [hy.1] at hsome
          cases hsome
      | parse item result =>
          rw [hy.1] at hsome
          cases hsome
      | report e' =>
          rcases hy with hdue' | ⟨hnone, -⟩
          · rw [hsome] at hdue'
            cases hdue'
            exact ⟨rest, rfl⟩
          · rw [hsome] at hnone
            cases hnone

end History

end ItemStore
