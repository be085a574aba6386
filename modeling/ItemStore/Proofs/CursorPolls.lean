import ItemStore.Proofs.CursorHistory

/-!
# Polling a cursor

Whatever is fetched and parsed, and however often a cursor is polled, its history is lawful
(`Watched.polls_lawful`).  Between two steps a cursor either reads or has ended, and what it holds
is a rest of the last page (`Standing`); each step keeps this (`Kept.step`), and so does each poll
(`Kept.next`), which takes steps until there is something to report.
-/

namespace ItemStore

open History

/-- A cursor in use: where it stands, the state of what it calls, and what has happened. -/
structure Watched (σ α ε : Type) where
  cursor : Cursor
  state : σ
  history : History α ε

namespace Watched

variable {σ α ε : Type}

/-- Fetch a page and note the call. -/
def noteFetch (fetch : Option Item → σ → Except ε Page × σ) (start : Option Item)
    (s : σ × History α ε) : Except ε Page × σ × History α ε :=
  let (result, state) := fetch start s.1
  (result, state, s.2 ++ [.fetch start result])

/-- Parse an item and note the call. -/
def noteParse (parse : Item → σ → Except ε α × σ) (item : Item) (s : σ × History α ε) :
    Except ε α × σ × History α ε :=
  let (result, state) := parse item s.1
  (result, state, s.2 ++ [.parse item result])

/-- A cursor before the first page. -/
def start (s : σ) : Watched σ α ε := ⟨Cursor.start, s, []⟩

/-- Poll the cursor, which takes so many steps at most, and note what it reports. -/
def poll (fetch : Option Item → σ → Except ε Page × σ) (parse : Item → σ → Except ε α × σ)
    (w : Watched σ α ε) (fuel : Nat) : Watched σ α ε :=
  let (e, cursor, state, history) :=
    Cursor.next (noteFetch fetch) (noteParse parse) fuel w.cursor (w.state, w.history)
  ⟨cursor, state, history ++ (e.map .report).toList⟩

/-- Poll the cursor again and again. -/
def polls (fetch : Option Item → σ → Except ε Page × σ) (parse : Item → σ → Except ε α × σ)
    (fuels : List Nat) (w : Watched σ α ε) : Watched σ α ε :=
  fuels.foldl (poll fetch parse) w

/-- The calls of the history, made one after another from the first state, have the results that are
noted and leave the second one. -/
inductive Replays (fetch : Option Item → σ → Except ε Page × σ)
    (parse : Item → σ → Except ε α × σ) (s : σ) : History α ε → σ → Prop
  | nil : Replays fetch parse s [] s
  | fetch {h : History α ε} {t : σ} (start : Option Item) : Replays fetch parse s h t →
      Replays fetch parse s (h ++ [.fetch start (fetch start t).1]) (fetch start t).2
  | parse {h : History α ε} {t : σ} (item : Item) : Replays fetch parse s h t →
      Replays fetch parse s (h ++ [.parse item (parse item t).1]) (parse item t).2
  | report {h : History α ε} {t : σ} (e : Event α ε) : Replays fetch parse s h t →
      Replays fetch parse s (h ++ [.report e]) t

/-- A cursor that still reads, between two steps.  What it holds is the rest of the last page. -/
structure Reading (c : Cursor) (h : History α ε) : Prop where
  notClosed : c.closed = false
  notDue : due? h = none
  startKey : c.startKey = lastKey h
  yielded : ∃ xs, items h = xs ++ c.buffer ∧ Yielded h xs
  held : c.buffer <:+ (pages h).getLast?.elim [] (·.items)
  more : c.exhausted = false → ∀ page ∈ pages h, page.hasMore = true
  last : c.exhausted = true → ∃ page, (pages h).getLast? = some page ∧ page.hasMore = false

/-- A cursor that has ended. -/
structure AtEnd (c : Cursor) (h : History α ε) : Prop where
  closed : c.closed = true
  notDue : due? h = none
  held : c.buffer = []
  ended : Ended h
  inOrder : InOrder h

/-- What holds between two steps of a cursor. -/
inductive Standing (c : Cursor) (h : History α ε) : Prop
  | reading : Reading c h → Standing c h
  | atEnd : AtEnd c h → Standing c h

section Steps

variable {c : Cursor} {h : History α ε} {item : Item} {rest : List Item}

theorem Reading.start : Reading Cursor.start ([] : History α ε) where
  notClosed := rfl
  notDue := rfl
  startKey := rfl
  yielded := ⟨[], rfl, [], rfl, rfl, rfl⟩
  held := List.suffix_rfl
  more _ := fun _ hpage => absurd hpage List.not_mem_nil
  last := nofun

/-! ### What a cursor that reads may do -/

theorem Reading.allowed_parse (hr : Reading c h) (hbuffer : c.buffer = item :: rest)
    (result : Except ε α) : Allowed h (.parse item result) := by
  obtain ⟨xs, hitems, hy⟩ := hr.yielded
  exact ⟨hr.notDue, xs, rest, hbuffer ▸ hitems, hy⟩

theorem Reading.yielded_all (hr : Reading c h) (hbuffer : c.buffer = []) :
    Yielded h (items h) := by
  obtain ⟨xs, hitems, hy⟩ := hr.yielded
  rw [hitems, hbuffer, List.append_nil]
  exact hy

theorem Reading.allowed_fetch (hr : Reading c h) (hbuffer : c.buffer = [])
    (hmore : c.exhausted = false) (result : Except ε Page) :
    Allowed h (.fetch c.startKey result) :=
  ⟨hr.notDue, hr.startKey, hr.yielded_all hbuffer, hr.more hmore⟩

theorem Reading.allowed_finished (hr : Reading c h) (hbuffer : c.buffer = [])
    (hlast : c.exhausted = true) : Allowed h (.report .finished) :=
  Or.inr ⟨hr.notDue, rfl, Or.inr ⟨hr.yielded_all hbuffer, hr.last hlast⟩⟩

/-! ### Where it stands after that -/

theorem pages_yield (h : History α ε) (item : Item) (v : α) :
    pages (h ++ [.parse item (.ok v)] ++ [.report (.item v)]) = pages h := by
  rw [pages_concat, pages_concat]
  simp [Happening.page?]

/-- An item has been yielded. -/
theorem Reading.parsed (hr : Reading c h) (hbuffer : c.buffer = item :: rest) (v : α) :
    Reading { c with buffer := rest } (h ++ [.parse item (.ok v)] ++ [.report (.item v)]) where
  notClosed := hr.notClosed
  notDue := due?_concat
  startKey := by
    rw [lastKey, pages_yield]
    exact hr.startKey
  yielded := by
    obtain ⟨xs, hitems, hy⟩ := hr.yielded
    refine ⟨xs ++ [item], ?_, hy.item item v⟩
    rw [items, pages_yield]
    simpa [items, hbuffer] using hitems
  held := by
    rw [pages_yield]
    exact (List.suffix_cons item rest).trans (hbuffer ▸ hr.held)
  more := by
    rw [pages_yield]
    exact hr.more
  last := by
    rw [pages_yield]
    exact hr.last

/-- A page has been fetched. -/
theorem Reading.fetched (hr : Reading c h) (hbuffer : c.buffer = []) (hmore : c.exhausted = false)
    (start : Option Item) (page : Page) :
    Reading (Cursor.holding page) (h ++ [.fetch start (.ok page)]) where
  notClosed := rfl
  notDue := due?_concat
  startKey := by simp [lastKey, Happening.page?, Cursor.holding]
  yielded := ⟨items h, by simp [Happening.page?, Cursor.holding],
    (hr.yielded_all hbuffer).fetch start _⟩
  held := by simp [Happening.page?, Cursor.holding]
  more hpage := by
    intro p hp
    rw [pages_concat] at hp
    rcases List.mem_append.mp hp with hp | hp
    · exact hr.more hmore p hp
    · obtain rfl := List.mem_singleton.mp hp
      simpa [Cursor.holding] using hpage
  last hpage := ⟨page, by simp [Happening.page?], by simpa [Cursor.holding] using hpage⟩

/-- A cursor that has reported its end, or a failure. -/
theorem AtEnd.report {e : Event α ε} (hi : InOrder h) (he : e.isEnd = true) :
    AtEnd Cursor.done (h ++ [.report e]) where
  closed := rfl
  notDue := due?_concat
  held := rfl
  ended := ended_report he
  inOrder := hi.report he

theorem Reading.inOrder (hr : Reading c h) : InOrder h := by
  obtain ⟨xs, hitems, hy⟩ := hr.yielded
  exact hy.inOrder ⟨_, hitems.symm⟩

theorem Standing.inOrder (hs : Standing c h) : InOrder h := by
  cases hs with
  | reading hr => exact hr.inOrder
  | atEnd he => exact he.inOrder

theorem Standing.held (hs : Standing c h) :
    c.buffer <:+ (pages h).getLast?.elim [] (·.items) := by
  cases hs with
  | reading hr => exact hr.held
  | atEnd he => exact he.held ▸ List.nil_suffix

end Steps

/-- What is kept from step to step. -/
structure Kept (fetch : Option Item → σ → Except ε Page × σ) (parse : Item → σ → Except ε α × σ)
    (s : σ) (w : Watched σ α ε) : Prop where
  lawful : Lawful w.history
  replays : Replays fetch parse s w.history w.state
  standing : Standing w.cursor w.history

section Runs

variable {fetch : Option Item → σ → Except ε Page × σ} {parse : Item → σ → Except ε α × σ}
  {s t : σ} {c : Cursor} {h : History α ε}

theorem Kept.start : Kept fetch parse s (Watched.start s) :=
  ⟨.nil, .nil, .reading .start⟩

/-- What one step does: either something is reported after at most one call, or a page is fetched,
which is what the cursor then holds. -/
inductive Stepped (fetch : Option Item → σ → Except ε Page × σ)
    (parse : Item → σ → Except ε α × σ) (s : σ) (c : Cursor) (h : History α ε) :
    Option (Event α ε) × Cursor × σ × History α ε → Prop
  | reported {e : Event α ε} {c' : Cursor} {t : σ} {h' : History α ε} :
      reports h' = reports h → Kept fetch parse s ⟨c', t, h' ++ [.report e]⟩ →
      Stepped fetch parse s c h (some e, c', t, h')
  | fetched {page : Page} {t : σ} : c.buffer = [] → c.exhausted = false →
      Kept fetch parse s ⟨.holding page, t, h ++ [.fetch c.startKey (.ok page)]⟩ →
      Stepped fetch parse s c h
        (none, .holding page, t, h ++ [.fetch c.startKey (.ok page)])

/-- A step that parses an item. -/
theorem Kept.step_parse {key : Option Item} {exhausted : Bool} {item : Item} {rest : List Item}
    (hk : Kept fetch parse s ⟨⟨key, item :: rest, exhausted, false⟩, t, h⟩)
    (hr : Reading ⟨key, item :: rest, exhausted, false⟩ h) :
    Stepped fetch parse s ⟨key, item :: rest, exhausted, false⟩ h
      (Cursor.step (noteFetch fetch) (noteParse parse) ⟨key, item :: rest, exhausted, false⟩
        (t, h)) := by
  have hallowed : ∀ result : Except ε α, Allowed h (.parse item result) := hr.allowed_parse rfl
  have hreplays := Replays.parse item hk.replays
  cases hresult : parse item t with
  | mk result t' =>
      rw [hresult] at hreplays
      cases result with
      | ok v =>
          simp only [Cursor.step, noteParse, hresult, Bool.false_eq_true, if_false]
          refine .reported (by simp [Happening.report?]) ⟨?_, .report _ hreplays, ?_⟩
          · exact (hk.lawful.concat (hallowed _)).concat (Or.inl due?_concat)
          · exact .reading (hr.parsed rfl v)
      | error e =>
          obtain ⟨xs, hitems, hy⟩ := hr.yielded
          simp only [Cursor.step, noteParse, hresult, Bool.false_eq_true, if_false]
          refine .reported (by simp [Happening.report?]) ⟨?_, .report _ hreplays, ?_⟩
          · exact (hk.lawful.concat (hallowed _)).concat (Or.inl due?_concat)
          · exact .atEnd (.report (hy.inOrder_failed hitems) rfl)

/-- A step that fetches a page. -/
theorem Kept.step_fetch {key : Option Item}
    (hk : Kept fetch parse s ⟨⟨key, [], false, false⟩, t, h⟩)
    (hr : Reading ⟨key, [], false, false⟩ h) :
    Stepped fetch parse s ⟨key, [], false, false⟩ h
      (Cursor.step (noteFetch fetch) (noteParse parse) ⟨key, [], false, false⟩ (t, h)) := by
  have hallowed : ∀ result : Except ε Page, Allowed h (.fetch key result) :=
    hr.allowed_fetch rfl rfl
  have hreplays := Replays.fetch key hk.replays
  cases hresult : fetch key t with
  | mk result t' =>
      rw [hresult] at hreplays
      cases result with
      | ok page =>
          simp only [Cursor.step, noteFetch, hresult, Bool.false_eq_true, if_false]
          exact .fetched rfl rfl ⟨hk.lawful.concat (hallowed _), hreplays,
            .reading (hr.fetched rfl rfl key page)⟩
      | error e =>
          simp only [Cursor.step, noteFetch, hresult, Bool.false_eq_true, if_false]
          refine .reported (by simp [Happening.report?]) ⟨?_, .report _ hreplays, ?_⟩
          · exact (hk.lawful.concat (hallowed _)).concat (Or.inl due?_concat)
          · exact .atEnd (.report (hr.inOrder.fetch key _) rfl)

/-- Each step keeps it. -/
theorem Kept.step (hk : Kept fetch parse s ⟨c, t, h⟩) :
    Stepped fetch parse s c h (Cursor.step (noteFetch fetch) (noteParse parse) c (t, h)) := by
  have hs : Standing c h := hk.standing
  cases hs with
  | atEnd he =>
      simp only [Cursor.step, he.closed, if_true]
      refine .reported rfl ⟨?_, .report _ hk.replays, .atEnd ?_⟩
      · exact hk.lawful.concat (Or.inr ⟨he.notDue, rfl, Or.inl he.ended⟩)
      · exact ⟨he.closed, due?_concat, he.held, ended_report rfl, he.inOrder.report rfl⟩
  | reading hr =>
      obtain ⟨key, buffer, exhausted, closed⟩ := c
      obtain rfl : closed = false := hr.notClosed
      cases buffer with
      | cons item rest => exact hk.step_parse hr
      | nil =>
          cases exhausted with
          | false => exact hk.step_fetch hr
          | true =>
              simp only [Cursor.step, Bool.false_eq_true, if_false, if_true]
              refine .reported rfl ⟨?_, .report _ hk.replays, ?_⟩
              · exact hk.lawful.concat (hr.allowed_finished rfl rfl)
              · exact .atEnd (.report hr.inOrder rfl)

/-- What one poll does: either one thing is reported, or as many pages are fetched as steps are
taken, and all of them but the last are empty and followed by another. -/
inductive Polled (fetch : Option Item → σ → Except ε Page × σ)
    (parse : Item → σ → Except ε α × σ) (s : σ) (fuel : Nat) (c : Cursor) (h : History α ε) :
    Option (Event α ε) × Cursor × σ × History α ε → Prop
  | reported {e : Event α ε} {c' : Cursor} {t : σ} {h' : History α ε} :
      reports h' = reports h → Kept fetch parse s ⟨c', t, h' ++ [.report e]⟩ →
      Polled fetch parse s fuel c h (some e, c', t, h')
  | pending {c' : Cursor} {t : σ} {h' : History α ε} (fetched : List Page) :
      fetched.length = fuel → pages h' = pages h ++ fetched → reports h' = reports h →
      (fetched ≠ [] → c.buffer = [] ∧ c.exhausted = false) →
      (∀ page ∈ fetched.dropLast, page.items = [] ∧ page.hasMore = true) →
      Kept fetch parse s ⟨c', t, h'⟩ →
      Polled fetch parse s fuel c h (none, c', t, h')

/-- Each poll keeps it. -/
theorem Kept.next (hk : Kept fetch parse s ⟨c, t, h⟩) (fuel : Nat) :
    Polled fetch parse s fuel c h
      (Cursor.next (noteFetch fetch) (noteParse parse) fuel c (t, h)) := by
  induction fuel generalizing c t h with
  | zero =>
      exact .pending [] rfl (List.append_nil _).symm rfl (absurd rfl)
        (fun _ hpage => absurd hpage List.not_mem_nil) hk
  | succ fuel ih =>
      rw [Cursor.next]
      generalize hstep : Cursor.step (noteFetch fetch) (noteParse parse) c (t, h) = result
      have hstepped := hk.step
      rw [hstep] at hstepped
      cases hstepped with
      | reported hreports hk' => exact .reported hreports hk'
      | @fetched page t' hbuffer hmore hk' =>
          have hpages : pages (h ++ [.fetch c.startKey (.ok page)] : History α ε) =
              pages h ++ [page] := by simp [Happening.page?]
          have hsame : reports (h ++ [.fetch c.startKey (.ok page)] : History α ε) =
              reports h := by simp [Happening.report?]
          show Polled fetch parse s (fuel + 1) c h
            (Cursor.next (noteFetch fetch) (noteParse parse) fuel (.holding page) (t', _))
          have hpolled := ih hk'
          generalize Cursor.next (noteFetch fetch) (noteParse parse) fuel (.holding page) _ =
            result at hpolled ⊢
          cases hpolled with
          | reported hreports hk'' => exact .reported (hreports.trans hsame) hk''
          | pending fetched hlength hfetched hreports hempty hbetween hk'' =>
              refine .pending (page :: fetched) (by simp [hlength]) ?_
                (hreports.trans hsame) (fun _ => ⟨hbuffer, hmore⟩) ?_ hk''
              · rw [hfetched, hpages, List.append_assoc, List.singleton_append]
              · intro p hp
                cases fetched with
                | nil => simp at hp
                | cons p' fetched =>
                    rw [List.dropLast_cons_cons] at hp
                    rcases List.mem_cons.mp hp with rfl | hp
                    · -- the page was held, and the next step did not report any of it
                      obtain ⟨hitems, hexhausted⟩ := hempty (List.cons_ne_nil _ _)
                      exact ⟨hitems, by simpa [Cursor.holding] using hexhausted⟩
                    · exact hbetween p hp

theorem Kept.poll {w : Watched σ α ε} (hk : Kept fetch parse s w) (fuel : Nat) :
    Kept fetch parse s (w.poll fetch parse fuel) := by
  obtain ⟨c, t, h⟩ := w
  have hpolled := hk.next fuel
  rw [Watched.poll]
  generalize Cursor.next (noteFetch fetch) (noteParse parse) fuel c (t, h) = result at hpolled ⊢
  cases hpolled with
  | reported _ hk' => exact hk'
  | pending _ _ _ _ _ _ hk' => simpa using hk'

theorem Kept.polls (fuels : List Nat) {w : Watched σ α ε} (hk : Kept fetch parse s w) :
    Kept fetch parse s (w.polls fetch parse fuels) := by
  induction fuels generalizing w with
  | nil => exact hk
  | cons fuel fuels ih => exact ih (hk.poll fuel)

/-- A poll reports, or goes through pages that are empty and followed by another. -/
theorem Kept.poll_progress {w : Watched σ α ε} (hk : Kept fetch parse s w) (fuel : Nat) :
    (∃ e, reports (w.poll fetch parse fuel).history = reports w.history ++ [e]) ∨
    ∃ fetched, fetched.length = fuel ∧
      pages (w.poll fetch parse fuel).history = pages w.history ++ fetched ∧
      ∀ page ∈ fetched.dropLast, page.items = [] ∧ page.hasMore = true := by
  obtain ⟨c, t, h⟩ := w
  have hpolled := hk.next fuel
  rw [Watched.poll]
  generalize Cursor.next (noteFetch fetch) (noteParse parse) fuel c (t, h) = result at hpolled ⊢
  cases hpolled with
  | @reported e _ _ _ hreports _ =>
      refine Or.inl ⟨e, ?_⟩
      simp [Happening.report?, hreports]
  | pending fetched hlength hfetched _ _ hbetween _ =>
      exact Or.inr ⟨fetched, hlength, by simpa using hfetched, hbetween⟩

theorem Standing.notDue (hs : Standing c h) : due? h = none := by
  cases hs with
  | reading hr => exact hr.notDue
  | atEnd he => exact he.notDue

/-- What polling a cursor does, whatever the fetcher and the parser do, however they depend on a
state, and however often the cursor is polled.

Nothing happens that is not allowed: the first page is fetched without a key, and each other page
with the last key of the page before it, once every item of the pages before it has been parsed and
yielded.  The noted calls are the calls made.  The items are parsed in the order of the pages, and
the values parsed are yielded in that order.  What is held is a rest of the last page fetched.  A
value, or the failure of a call, is reported next, and after a failure or after the last page there
are no more calls.  Each poll reports one thing, unless it goes through empty pages that others
follow. -/
theorem polls_lawful (fetch : Option Item → σ → Except ε Page × σ)
    (parse : Item → σ → Except ε α × σ) (s : σ) (fuels : List Nat) :
    let w := (start s : Watched σ α ε).polls fetch parse fuels
    Lawful w.history ∧ Replays fetch parse s w.history w.state ∧ InOrder w.history ∧
    w.cursor.buffer <:+ (pages w.history).getLast?.elim [] (·.items) ∧
    (∀ before x after e, w.history = before ++ x :: after → x.due? = some e →
      ∃ rest, after = .report e :: rest) ∧
    (∀ before after, w.history = before ++ after → due? before = none → Over before →
      ∀ x ∈ after, x = .report .finished) ∧
    ∀ fuel, (∃ e, reports (w.poll fetch parse fuel).history = reports w.history ++ [e]) ∨
      ∃ fetched, fetched.length = fuel ∧
        pages (w.poll fetch parse fuel).history = pages w.history ++ fetched ∧
        ∀ page ∈ fetched.dropLast, page.items = [] ∧ page.hasMore = true := by
  intro w
  have hk : Kept fetch parse s w := Kept.start.polls fuels
  refine ⟨hk.lawful, hk.replays, hk.standing.inOrder, hk.standing.held, ?_, ?_, hk.poll_progress⟩
  · intro before x after e hsplit hx
    have hl := hk.lawful
    have hdue := hk.standing.notDue
    rw [hsplit] at hl hdue
    exact hl.reported hx hdue
  · intro before after hsplit hdue ho
    have hl := hk.lawful
    rw [hsplit] at hl
    exact (ho.after hdue hl).1

/-- Prepared pages, and after them an empty one. -/
def handOut (_ : Option Item) :
    List (Except String Page) → Except String Page × List (Except String Page)
  | [] => (.ok Page.empty, [])
  | page :: rest => (page, rest)

/-- An empty page with a key, a page of two items, and a page that cannot be fetched. -/
def threePages : List (Except String Page) :=
  [.ok ⟨[], some [("n", .number "0")]⟩,
    .ok ⟨[[("n", .number "1")], [("n", .number "2")]], some [("n", .number "2")]⟩,
    .error "throttled"]

/-- The three pages, and then as many polls as told. -/
def readingThree (fuels : List Nat) : Watched (List (Except String Page)) Item String :=
  (start threePages).polls handOut (fun item s => (.ok item, s)) fuels

/-- Three polls report the two items and the failure, and the polls after them only the end. -/
theorem polls_lawful_failure :
    let before := (readingThree [3, 3, 3]).history
    let after : History Item String := [.report .finished, .report .finished]
    reports before = [.item [("n", .number "1")], .item [("n", .number "2")],
      .failure "throttled"] ∧
    (readingThree [3, 3, 3, 3, 3]).history = before ++ after ∧ Over before ∧
    ∀ x ∈ after, x = .report .finished := by
  intro before after
  have hreports : reports before = [.item [("n", .number "1")], .item [("n", .number "2")],
      .failure "throttled"] := rfl
  have hsplit : (readingThree [3, 3, 3, 3, 3]).history = before ++ after := rfl
  have hover : Over before := Or.inl ⟨.failure "throttled", by rw [hreports]; simp, rfl⟩
  obtain ⟨-, -, -, -, -, hquiet, -⟩ :=
    polls_lawful handOut (fun item s => (.ok item, s)) threePages [3, 3, 3, 3, 3]
  exact ⟨hreports, hsplit, hover, hquiet before after hsplit rfl hover⟩

end Runs

end Watched

end ItemStore
