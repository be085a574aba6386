import ItemStore.Cursor
import ItemStore.Proofs.Paging

/-!
# What a cursor reports

A cursor reports the items of the chain of pages that it goes through, in order and up to the first
one that cannot be parsed.  A fetch may note in the state where its page starts, but no more than
that; unless an item cannot be parsed, each page of the chain is then noted once
(`drain_of_noted_chain`).  Between two fetches the cursor works off its buffer, which is the subject
of `drain_buffer`; the induction over the chain then goes from page to page.
-/

namespace ItemStore.Cursor

variable {σ ε α : Type} {fetch : Option Item → σ → Except ε Page × σ}
  {parse : Item → σ → Except ε α × σ} {s : σ} {fetchAt : Option Item → Except ε Page}
  {parseAt : Item → Except ε α}

/-- The reports on some items, up to the first one that cannot be parsed. -/
def reports (parseAt : Item → Except ε α) : List Item → List (Event α ε)
  | [] => []
  | x :: xs =>
      match parseAt x with
      | .ok v => .item v :: reports parseAt xs
      | .error e => [.failure e]

/-- Where all items are parsed, the values are reported. -/
theorem reports_map {f : α → Item} {vs : List α} (h : ∀ v ∈ vs, parseAt (f v) = .ok v) :
    reports parseAt (vs.map f) = vs.map .item := by
  induction vs with
  | nil => rfl
  | cons v vs ih =>
      rw [List.map_cons, reports, h v List.mem_cons_self, List.map_cons,
        ih fun w hw => h w (List.mem_cons_of_mem _ hw)]

/-! ## Cursors that have come to an end -/

theorem drain_done (fuel : Nat) : drain fetch parse fuel done s = ([], done, s) := by
  cases fuel <;> rfl

theorem drain_exhausted (key : Option Item) {fuel : Nat} (hfuel : 0 < fuel) :
    drain fetch parse fuel ⟨key, [], true, false⟩ s = ([], done, s) := by
  obtain ⟨fuel, rfl⟩ : ∃ n, fuel = n + 1 := ⟨fuel - 1, by omega⟩
  rfl

theorem drain_of_fetch_error {start : Option Item} {e : ε} {s' : σ} {fuel : Nat}
    (hfuel : 0 < fuel) (h : fetch start s = (.error e, s')) :
    drain fetch parse fuel ⟨start, [], false, false⟩ s = ([.failure e], done, s') := by
  obtain ⟨fuel, rfl⟩ : ∃ n, fuel = n + 1 := ⟨fuel - 1, by omega⟩
  have hstep : step fetch parse ⟨start, [], false, false⟩ s = (some (.failure e), done, s') := by
    simp only [step, h, Bool.false_eq_true, if_false]
  rw [drain, hstep]
  simp only [drain_done]

/-! ## Working off the buffer -/

/-- A run that reports the items and comes to its end.  Its last state has the property, and is the
one expected unless the run has ended early. -/
structure Reports (parseAt : Item → Except ε α) (P : σ → Prop) (expected : σ) (items : List Item)
    (run : List (Event α ε) × Cursor × σ) : Prop where
  events : run.1 = reports parseAt items
  done : run.2.1 = done
  state : P run.2.2
  ended : (∀ e, .failure e ∉ run.1) → run.2.2 = expected

/-- After the buffer the cursor goes on as it would from an empty one. -/
theorem drain_buffer {P : σ → Prop} {expected : σ} {key : Option Item} {exhausted : Bool}
    {rest : List Item} {n : Nat} (hs : P s) (hparse : ∀ x, parse x s = (parseAt x, s))
    (hrest : ∀ fuel, n ≤ fuel →
      Reports parseAt P expected rest (drain fetch parse fuel ⟨key, [], exhausted, false⟩ s))
    (buffer : List Item) {fuel : Nat} (hfuel : buffer.length + n ≤ fuel) :
    Reports parseAt P expected (buffer ++ rest)
      (drain fetch parse fuel ⟨key, buffer, exhausted, false⟩ s) := by
  induction buffer generalizing fuel with
  | nil => exact hrest fuel (by simpa using hfuel)
  | cons x xs ih =>
      rw [List.length_cons] at hfuel
      obtain ⟨fuel, rfl⟩ : ∃ m, fuel = m + 1 := ⟨fuel - 1, by omega⟩
      cases hx : parseAt x with
      | ok v =>
          have hstep : step fetch parse ⟨key, x :: xs, exhausted, false⟩ s =
              (some (.item v), ⟨key, xs, exhausted, false⟩, s) := by
            simp only [step, hparse, hx, Bool.false_eq_true, if_false]
          obtain ⟨hevents, hdone, hstate, hended⟩ := ih (by omega : xs.length + n ≤ fuel)
          rw [drain, hstep]
          refine ⟨?_, hdone, hstate, ?_⟩
          · simp only [List.cons_append, reports, hx, hevents]
          · exact fun hno => hended fun e he => hno e (List.mem_cons_of_mem _ he)
      | error e =>
          have hstep : step fetch parse ⟨key, x :: xs, exhausted, false⟩ s =
              (some (.failure e), done, s) := by
            simp only [step, hparse, hx, Bool.false_eq_true, if_false]
          rw [drain, hstep]
          simp only [drain_done]
          refine ⟨?_, rfl, hs, ?_⟩
          · simp only [List.cons_append, reports, hx]
          · exact fun hno => absurd List.mem_cons_self (hno e)

/-! ## Going from page to page -/

theorem hasMore_of_key {page : Page} {key : Item} (h : page.lastKey = some key) (hne : key ≠ []) :
    page.hasMore = true := by
  cases key with
  | nil => exact absurd rfl hne
  | cons e key => simp [Page.hasMore, h]

/-- Where the pages of a chain start. -/
def starts : Option Item → List Page → List (Option Item)
  | _, [] => []
  | start, page :: pages => start :: starts page.lastKey pages

theorem length_starts (start : Option Item) (pages : List Page) :
    (starts start pages).length = pages.length := by
  induction pages generalizing start with
  | nil => rfl
  | cons page pages ih => rw [starts, List.length_cons, List.length_cons, ih]

/-- A cursor reports the items of its pages, and each of these is noted where it starts.  The cursor
takes one step for each page, one for each item, and one more to end. -/
theorem drain_of_noted_chain {P : σ → Prop} {note : Option Item → σ → σ}
    (hnote : ∀ start s, P s → P (note start s))
    (hfetch : ∀ start s, P s → fetch start s = (fetchAt start, note start s))
    (hparse : ∀ x s, P s → parse x s = (parseAt x, s)) (hs : P s) {start : Option Item}
    {pages : List Page} (hchain : Page.Chain fetchAt start pages)
    (hkeys : ∀ page ∈ pages, ∀ key ∈ page.lastKey, key ≠ []) {fuel : Nat}
    (hfuel : pages.length + (pages.flatMap (·.items)).length < fuel) :
    Reports parseAt P ((starts start pages).foldl (fun s start => note start s) s)
      (pages.flatMap (·.items)) (drain fetch parse fuel ⟨start, [], false, false⟩ s) := by
  induction hchain generalizing fuel s with
  | @last start page hpage hlast =>
      simp only [List.length_singleton, List.flatMap_singleton] at hfuel ⊢
      obtain ⟨fuel, rfl⟩ : ∃ m, fuel = m + 1 := ⟨fuel - 1, by omega⟩
      have hnoted := hnote start s hs
      have hstep : step fetch parse ⟨start, [], false, false⟩ s =
          (none, ⟨none, page.items, true, false⟩, note start s) := by
        simp [step, hfetch start s hs, hpage, holding, hlast, Page.hasMore]
      rw [drain, hstep]
      have hend : ∀ fuel, 1 ≤ fuel → Reports parseAt P (note start s) []
          (drain fetch parse fuel ⟨none, [], true, false⟩ (note start s)) := by
        intro fuel hfuel
        rw [drain_exhausted none hfuel]
        exact ⟨rfl, rfl, hnoted, fun _ => rfl⟩
      have hbuffer := drain_buffer hnoted (fun x => hparse x _ hnoted) hend page.items
        (by omega : page.items.length + 1 ≤ fuel)
      rwa [List.append_nil] at hbuffer
  | @more start page key pages hpage hmore hchain ih =>
      simp only [List.length_cons, List.flatMap_cons, List.length_append] at hfuel ⊢
      obtain ⟨fuel, rfl⟩ : ∃ m, fuel = m + 1 := ⟨fuel - 1, by omega⟩
      have hnoted := hnote start s hs
      have hkey : key ≠ [] := hkeys page List.mem_cons_self key hmore
      have hstep : step fetch parse ⟨start, [], false, false⟩ s =
          (none, ⟨some key, page.items, false, false⟩, note start s) := by
        simp [step, hfetch start s hs, hpage, holding, hmore, hasMore_of_key hmore hkey]
      rw [drain, hstep, starts, hmore]
      exact drain_buffer hnoted (fun x => hparse x _ hnoted)
        (fun fuel hle => ih hnoted (fun p hp => hkeys p (List.mem_cons_of_mem _ hp)) hle)
        page.items (by omega)

/-- Where a fetch leaves the state as it is, so does the whole run. -/
theorem drain_of_chain (hfetch : ∀ start, fetch start s = (fetchAt start, s))
    (hparse : ∀ x, parse x s = (parseAt x, s)) {start : Option Item} {pages : List Page}
    (hchain : Page.Chain fetchAt start pages)
    (hkeys : ∀ page ∈ pages, ∀ key ∈ page.lastKey, key ≠ []) {fuel : Nat}
    (hfuel : pages.length + (pages.flatMap (·.items)).length < fuel) :
    drain fetch parse fuel ⟨start, [], false, false⟩ s =
      (reports parseAt (pages.flatMap (·.items)), done, s) := by
  have hfetch' : ∀ start s', s' = s → fetch start s' = (fetchAt start, s') := by
    rintro start _ rfl
    exact hfetch start
  have hparse' : ∀ x s', s' = s → parse x s' = (parseAt x, s') := by
    rintro x _ rfl
    exact hparse x
  have hreports := drain_of_noted_chain (fun _ _ hs' => hs') hfetch' hparse' rfl hchain hkeys hfuel
  exact Prod.ext hreports.events (Prod.ext hreports.done hreports.state)

end ItemStore.Cursor
