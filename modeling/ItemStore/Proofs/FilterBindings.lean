import ItemStore.Proofs.RequestPages
import ItemStore.Proofs.StoreRun
import ItemStore.Proofs.UnboundParameters

/-!
# Filters that lack bindings

A filter is evaluated on the items of a page, one after another, and only as far as each item makes
it necessary.  Hence a request whose filter has a parameter without a value is refused exactly if
some item of its page asks for the parameter, before any other fault
(`PageRequest.missing_binding_reported`): nothing is reported for an empty page, and what is
reported depends on what is stored (`PageRequest.missing_binding_unreported`).  What goes unreported
is not needed either, since with a value for the parameter the answer is the same.

A request to a table that there is fails only for what the request says
(`PageRequest.answerOf_blamesRequest`).
-/

namespace ItemStore

variable {values values' : NameMap Value} {s : Store} {t : IndexedTable}

namespace Store

/-! ## Failures of requests -/

/-- The computation fails only for what the request says. -/
def BlamesRequest {α : Type} (x : Except StoreError α) : Prop :=
  ∀ e, x = .error e → e.code = .validation

namespace BlamesRequest

variable {ε α β : Type} {x : Except StoreError α}

theorem ok (a : α) : BlamesRequest (.ok a) := nofun

theorem error {e : StoreError} (h : e.code = .validation) : BlamesRequest (α := α) (.error e) := by
  rintro _ ⟨⟩
  exact h

theorem bind {f : α → Except StoreError β} (hx : BlamesRequest x)
    (hf : ∀ a, BlamesRequest (f a)) : BlamesRequest (x >>= f) := by
  intro e he
  rcases bind_eq_error_iff.mp he with he | ⟨a, -, he⟩
  · exact hx e he
  · exact hf a e he

theorem mapError {f : ε → StoreError} (hf : ∀ e, (f e).code = .validation) (y : Except ε α) :
    BlamesRequest (y.mapError f) := by
  intro e he
  obtain ⟨e', -, rfl⟩ := mapError_eq_error_iff.mp he
  exact hf e'

end BlamesRequest

theorem pageLimit_blamesRequest (s : Store) (limit : Option Int) :
    BlamesRequest (s.pageLimit limit) := by
  cases limit with
  | none => exact .ok _
  | some n =>
      rw [pageLimit]
      split
      · exact .error rfl
      · exact .ok _

theorem index_blamesRequest (t : IndexedTable) (name : String) : BlamesRequest (t.index name) := by
  rw [IndexedTable.index]
  split
  · exact .ok _
  · exact .error rfl

theorem readCondition_blamesRequest (text : String) : BlamesRequest (readCondition text) :=
  .mapError (fun _ => rfl) _

theorem readFilter_blamesRequest (filter : Option String) : BlamesRequest (readFilter filter) := by
  intro e he
  rw [readFilter.eq_def] at he
  split at he
  · cases he
  split at he
  · cases he
  · exact readCondition_blamesRequest _ e (map_eq_error_iff.mp he)

theorem readIndex_blamesRequest (t : IndexedTable) (i : KeySchema) (view : View)
    (start : Option Item) (forward : Bool) (limit : Option Nat) :
    BlamesRequest (t.readIndex i view start forward limit) := by
  cases start with
  | none => exact .ok _
  | some key => exact (BlamesRequest.mapError (fun _ => rfl) _).bind fun _ => .ok _

theorem keepMatching_blamesRequest (f : Condition) (values : NameMap Value) (items : List Item) :
    BlamesRequest (keepMatching f values items) := by
  induction items with
  | nil => exact .ok _
  | cons x xs ih =>
      refine (BlamesRequest.mapError (fun _ => rfl) _).bind fun keep => ?_
      exact ih.bind fun _ => .ok _

theorem answer_blamesRequest (page : Page) (f : Option Condition) (values : NameMap Value) :
    BlamesRequest (answer page f values) := by
  cases f with
  | none => exact .ok _
  | some f => exact (keepMatching_blamesRequest f values page.items).bind fun _ => .ok _

/-- A query of a table that there is fails only for what the request says. -/
theorem query_blamesRequest {r : Query} (ht : s.table r.table = .ok t) :
    BlamesRequest (s.query r) := by
  rw [query, ht]
  refine (pageLimit_blamesRequest s _).bind fun limit => ?_
  refine (readFilter_blamesRequest _).bind fun filter => ?_
  refine (readCondition_blamesRequest _).bind fun c => ?_
  have hanswer := fun page => answer_blamesRequest page filter r.values
  dsimp only
  cases r.index with
  | none =>
      refine (BlamesRequest.mapError (fun _ => rfl) _).bind fun k => ?_
      exact (BlamesRequest.mapError (fun _ => rfl) _).bind hanswer
  | some name =>
      refine (index_blamesRequest t name).bind fun i => ?_
      refine (BlamesRequest.mapError (fun _ => rfl) _).bind fun k => ?_
      exact (readIndex_blamesRequest t i _ _ _ limit).bind hanswer

theorem scan_blamesRequest {r : Scan} (ht : s.table r.table = .ok t) :
    BlamesRequest (s.scan r) := by
  rw [scan, ht]
  refine (pageLimit_blamesRequest s _).bind fun limit => ?_
  refine (readFilter_blamesRequest _).bind fun filter => ?_
  have hanswer := fun page => answer_blamesRequest page filter r.values
  dsimp only
  cases r.index with
  | none => exact (BlamesRequest.mapError (fun _ => rfl) _).bind hanswer
  | some name =>
      refine (index_blamesRequest t name).bind fun i => ?_
      exact (readIndex_blamesRequest t i _ _ _ limit).bind hanswer

/-! ## Filters -/

theorem exists_keepMatching_iff {f : Condition} {items : List Item} :
    (∃ kept, keepMatching f values items = .ok kept) ↔
      ∀ x ∈ items, ∃ b, f.eval x values = .ok b := by
  induction items with
  | nil => exact ⟨fun _ => nofun, fun _ => ⟨[], rfl⟩⟩
  | cons x xs ih =>
      rw [List.forall_mem_cons, ← ih]
      constructor
      · rintro ⟨kept, h⟩
        obtain ⟨b, hb, h⟩ := bind_eq_ok_iff.mp h
        obtain ⟨rest, hrest, -⟩ := bind_eq_ok_iff.mp h
        exact ⟨⟨b, mapError_eq_ok_iff.mp hb⟩, rest, hrest⟩
      · rintro ⟨⟨b, hb⟩, rest, hrest⟩
        rw [keepMatching, hb, hrest]
        exact ⟨_, rfl⟩

/-- A filter fails at the first item on which it cannot be evaluated. -/
theorem keepMatching_eq_error_iff {f : Condition} {items : List Item} {e : ExpressionError} :
    keepMatching f values items = .error (.expression e) ↔
      ∃ before x after, items = before ++ x :: after ∧
        (∀ y ∈ before, ∃ b, f.eval y values = .ok b) ∧ f.eval x values = .error e := by
  induction items with
  | nil =>
      refine iff_of_false nofun ?_
      rintro ⟨before, x, after, h, -⟩
      cases before <;> cases h
  | cons y ys ih =>
      constructor
      · intro h
        rcases bind_eq_error_iff.mp h with h | ⟨b, hb, h⟩
        · obtain ⟨e', he, heq⟩ := mapError_eq_error_iff.mp h
          cases heq
          exact ⟨[], y, ys, rfl, nofun, he⟩
        · rcases bind_eq_error_iff.mp h with h | ⟨kept, -, h⟩
          · obtain ⟨before, x, after, rfl, hbefore, hx⟩ := ih.mp h
            refine ⟨y :: before, x, after, rfl, ?_, hx⟩
            exact List.forall_mem_cons.mpr ⟨⟨b, mapError_eq_ok_iff.mp hb⟩, hbefore⟩
          · cases h
      · rintro ⟨before, x, after, hsplit, hbefore, hx⟩
        cases before with
        | nil =>
            obtain ⟨rfl, rfl⟩ := List.cons.inj hsplit
            rw [keepMatching, hx]
            rfl
        | cons z before =>
            obtain ⟨rfl, rfl⟩ := List.cons.inj hsplit
            obtain ⟨⟨b, hb⟩, hbefore⟩ := List.forall_mem_cons.mp hbefore
            have hrest := ih.mpr ⟨before, x, after, rfl, hbefore, hx⟩
            rw [keepMatching, hb]
            show (keepMatching f values _).bind _ = _
            rw [hrest]
            rfl

theorem exists_answer_iff {f : Condition} {page : Page} :
    (∃ a, answer page (some f) values = .ok a) ↔
      ∀ x ∈ page.items, ∃ b, f.eval x values = .ok b := by
  rw [← exists_keepMatching_iff]
  constructor
  · rintro ⟨a, h⟩
    obtain ⟨kept, hkept, -⟩ := bind_eq_ok_iff.mp h
    exact ⟨kept, hkept⟩
  · rintro ⟨kept, hkept⟩
    exact ⟨_, bind_eq_ok_iff.mpr ⟨kept, hkept, rfl⟩⟩

theorem answer_eq_error_iff {f : Condition} {page : Page} {e : StoreError} :
    answer page (some f) values = .error e ↔ keepMatching f values page.items = .error e := by
  constructor
  · intro h
    rcases bind_eq_error_iff.mp h with h | ⟨kept, -, h⟩
    · exact h
    · cases h
  · intro h
    exact bind_eq_error_iff.mpr (Or.inl h)

/-! ## More values -/

theorem keepMatching_keptBy (h : values.Within values') (f : Condition) (items : List Item) :
    KeptBy (keepMatching f values items) (keepMatching f values' items) := by
  induction items with
  | nil => exact .refl _
  | cons x xs ih => exact ((f.eval_keptBy h).mapError _).bind fun _ => ih.bind fun _ => .refl _

theorem answer_keptBy (h : values.Within values') (page : Page) (f : Option Condition) :
    KeptBy (answer page f values) (answer page f values') := by
  cases f with
  | none => exact .refl _
  | some f => exact (keepMatching_keptBy h f page.items).bind fun _ => .refl _

theorem query_keptBy (s : Store) (r : Query) (h : r.values.Within values') :
    KeptBy (s.query r) (s.query { r with values := values' }) := by
  refine (KeptBy.refl _).bind fun t => ?_
  refine (KeptBy.refl _).bind fun limit => ?_
  refine (KeptBy.refl _).bind fun filter => ?_
  refine (KeptBy.refl _).bind fun c => ?_
  have hanswer := fun page => answer_keptBy h page filter
  dsimp only
  cases r.index with
  | none =>
      refine ((KeyCondition.ofCondition_keptBy h c).mapError _).bind fun k => ?_
      exact (KeptBy.refl _).bind hanswer
  | some name =>
      refine (KeptBy.refl _).bind fun i => ?_
      refine ((KeyCondition.ofCondition_keptBy h c).mapError _).bind fun k => ?_
      exact (KeptBy.refl _).bind hanswer

theorem scan_keptBy (s : Store) (r : Scan) (h : r.values.Within values') :
    KeptBy (s.scan r) (s.scan { r with values := values' }) := by
  refine (KeptBy.refl _).bind fun t => ?_
  refine (KeptBy.refl _).bind fun limit => ?_
  refine (KeptBy.refl _).bind fun filter => ?_
  have hanswer := fun page => answer_keptBy h page filter
  dsimp only
  cases r.index with
  | none => exact (KeptBy.refl _).bind hanswer
  | some name =>
      refine (KeptBy.refl _).bind fun i => ?_
      exact (KeptBy.refl _).bind hanswer

end Store

/-! ## Requests -/

namespace PageRequest

variable {request : PageRequest} {c : Condition} {page : Page} {name : String}

def startKey : PageRequest → Item
  | query r => r.startKey
  | scan r => r.startKey

/-- The request with other values for its parameters. -/
def withValues (values : NameMap Value) : PageRequest → PageRequest
  | query r => query { r with values := values }
  | scan r => scan { r with values := values }

/-- The answer of a store to the request. -/
def answerOf (s : Store) (request : PageRequest) : Except StoreError PageRead :=
  (request.send Store.client s).1

/-- The page of the request, before the filter. -/
def pageOf (s : Store) (request : PageRequest) : Except StoreError Page :=
  request.page s (some request.startKey)

theorem answerOf_eq_page (s : Store) {f : Option Condition}
    (hf : Store.readFilter request.filter = .ok f) :
    request.answerOf s =
      request.pageOf s >>= fun page => Store.answer page f request.values := by
  have hstart : request.startingAfter (some request.startKey) = request := by
    cases request <;> rfl
  have hsend := send_eq_page s request hf (some request.startKey)
  rwa [hstart] at hsend

theorem answerOf_blamesRequest (ht : s.table request.table = .ok t) :
    Store.BlamesRequest (request.answerOf s) := by
  cases request with
  | query r => exact Store.query_blamesRequest ht
  | scan r => exact Store.scan_blamesRequest ht

/-- Values for more parameters change no answer. -/
theorem answerOf_keptBy (s : Store) (request : PageRequest)
    (h : request.values.Within values') :
    KeptBy (request.answerOf s) ((request.withValues values').answerOf s) := by
  cases request with
  | query r => exact Store.query_keptBy s r h
  | scan r => exact Store.scan_keptBy s r h

theorem length_eq_arity_of_readFilter (h : Store.readFilter request.filter = .ok (some c)) :
    ∀ p ∈ c.calls, p.2.length = p.1.arity := by
  rw [Store.readFilter.eq_def] at h
  split at h
  next => cases h
  next text _ =>
      split at h
      · cases h
      · obtain ⟨c', hc, heq⟩ := map_eq_ok_iff.mp h
        cases heq
        have htext := Store.readCondition_eq_ok_iff.mp hc
        exact (Condition.exists_ofText_iff.mp ⟨text, htext⟩).length_eq_arity

/-- What is reported of the bindings that a filter lacks, for every request with a filter and
whatever the table has in it.

All failures are blamed on the request.  A request that has no page is refused as it is without the
filter.  One that has a page is answered exactly if the filter can be evaluated on each item of the
page, and reports a parameter exactly if some item asks for it and the filter can be evaluated on
all items before that.  If the parameter is among the leading operands of the filter, the request is
answered exactly if the page is empty.  An answer that is given although some parameters have no
value is the same with values for them. -/
theorem missing_binding_reported (s : Store) (request : PageRequest) (t : IndexedTable)
    (c : Condition) (ht : s.table request.table = .ok t)
    (hc : Store.readFilter request.filter = .ok (some c)) :
    (∀ e, request.answerOf s = .error e → e.code = .validation) ∧
    (∀ e, request.pageOf s = .error e → request.answerOf s = .error e) ∧
    (∀ page, request.pageOf s = .ok page →
      ((∃ a, request.answerOf s = .ok a) ↔
        ∀ x ∈ page.items, ∃ b, c.eval x request.values = .ok b) ∧
      (∀ name, request.answerOf s = .error (.expression (.unresolvedValue name)) ↔
        ∃ before x after, page.items = before ++ x :: after ∧
          (∀ y ∈ before, ∃ b, c.eval y request.values = .ok b) ∧
          c.Asks x request.values name) ∧
      ∀ name, .param name ∈ c.leading → NameMap.get? request.values name = none →
        ((∃ a, request.answerOf s = .ok a) ↔ page.items = [])) ∧
    ∀ values', request.values.Within values' → ∀ a, request.answerOf s = .ok a →
      (request.withValues values').answerOf s = .ok a := by
  refine ⟨answerOf_blamesRequest ht, ?_, ?_, fun values' => answerOf_keptBy s request⟩
  · intro e he
    rw [answerOf_eq_page s hc, he]
    rfl
  intro page hpage
  have hanswer : request.answerOf s = Store.answer page (some c) request.values := by
    rw [answerOf_eq_page s hc, hpage]
    rfl
  rw [hanswer, Store.exists_answer_iff]
  refine ⟨Iff.rfl, ?_, ?_⟩
  · intro name
    simp only [Store.answer_eq_error_iff, Store.keepMatching_eq_error_iff,
      Condition.eval_eq_unresolved_iff]
  · intro name hname hnone
    constructor
    · intro heval
      cases hitems : page.items with
      | nil => rfl
      | cons x xs =>
          obtain ⟨b, hb⟩ := heval x (by rw [hitems]; exact List.mem_cons_self)
          obtain ⟨v, hv⟩ := Condition.bound_of_eval (length_eq_arity_of_readFilter hc) hb _ hname
          cases hnone.symm.trans hv
    · intro hnil
      rw [hnil]
      exact nofun

/-- The readings of a device, and all that have a note for which no value is given. -/
def notedOr (device : String) : PageRequest :=
  .scan ⟨"readings", none, some "device = :d or note = :n", [(":d", .string device)], none, [],
    none⟩

/-- The table declared, and a reading of the device `d` in it. -/
def oneReading : Store := (Store.empty none).run (Store.readingOperations.take 2)

/-- A reading of the device asked for decides the filter, and a note may have any value then; a
reading of another device asks for it. -/
theorem missing_binding_reported_readings :
    (∃ a, (notedOr "d").answerOf oneReading = .ok a ∧ ∀ v,
      ((notedOr "d").withValues [(":d", .string "d"), (":n", v)]).answerOf oneReading = .ok a) ∧
    (notedOr "e").answerOf oneReading = .error (.expression (.unresolvedValue ":n")) := by
  have ht : oneReading.table "readings" = .ok ⟨Table.ofPuts Table.readingSchema
      [Table.reading "1" "first"], Store.loadedReadings.indexes⟩ := by decide +kernel
  have hc : Store.readFilter (some "device = :d or note = :n") =
      .ok (some (.or (.compare (.path ["device"]) .eq (.param ":d"))
        (.compare (.path ["note"]) .eq (.param ":n")))) := by decide +kernel
  have hpage : ∀ device, (notedOr device).pageOf oneReading =
      .ok ⟨[Table.reading "1" "first"], none⟩ := by
    intro device
    have hsame : (notedOr device).pageOf oneReading = (notedOr "d").pageOf oneReading := rfl
    rw [hsame]
    decide +kernel
  obtain ⟨-, -, hd, hvalues⟩ := missing_binding_reported oneReading (notedOr "d") _ _ ht hc
  obtain ⟨-, -, he, -⟩ := missing_binding_reported oneReading (notedOr "e") _ _ ht hc
  refine ⟨?_, ?_⟩
  · obtain ⟨a, ha⟩ := (hd _ (hpage "d")).1.mpr
      (List.forall_mem_singleton.mpr ⟨true, by decide +kernel⟩)
    refine ⟨a, ha, fun v => hvalues _ ?_ a ha⟩
    intro name w hw
    show NameMap.get? (NameMap.set [(":d", .string "d")] ":n" v) name = some w
    have hname : name ≠ ":n" := by
      rintro rfl
      cases hw
    rw [NameMap.get?_set, if_neg hname]
    exact hw
  · refine ((he _ (hpage "e")).2.1 ":n").mpr ⟨[], _, [], rfl, nofun, .orRight ?_ ?_⟩
    · decide +kernel
    · exact .compare (.there trivial (.here rfl))

/-- The same request is answered while the table is empty and refused as soon as there is a
reading. -/
theorem missing_binding_unreported :
    ¬ ∀ (s s' : Store) (request : PageRequest) (t t' : IndexedTable) (c : Condition)
      (name : String), s.Reachable → s'.Reachable → s.table request.table = .ok t →
      s'.table request.table = .ok t' → t.table.schema = t'.table.schema →
      t.indexes = t'.indexes → Store.readFilter request.filter = .ok (some c) →
      .param name ∈ c.operands → NameMap.get? request.values name = none →
      (∃ e, request.answerOf s = .error e ∧ e.code = .validation) ∧
        ∃ e, request.answerOf s' = .error e ∧ e.code = .validation := by
  intro h
  let s := (Store.empty none).run (Store.readingOperations.take 1)
  have hs : s.table "readings" = .ok ⟨Table.empty Table.readingSchema,
      Store.loadedReadings.indexes⟩ := by decide +kernel
  have hs' : oneReading.table "readings" = .ok ⟨Table.ofPuts Table.readingSchema
      [Table.reading "1" "first"], Store.loadedReadings.indexes⟩ := by decide +kernel
  have hc : Store.readFilter (some "note = :n") =
      .ok (some (.compare (.path ["note"]) .eq (.param ":n"))) := by decide +kernel
  have hempty : (PageRequest.scan ⟨"readings", none, some "note = :n", [], none, [], none⟩).answerOf
      s = .ok ⟨[], 0, 0, none⟩ := by decide +kernel
  obtain ⟨⟨e, he, -⟩, -⟩ := h s oneReading
    (.scan ⟨"readings", none, some "note = :n", [], none, [], none⟩) _ _ _ ":n"
    (Store.reachable_run none _) (Store.reachable_run none _) hs hs' rfl rfl hc
    (by decide) rfl
  cases hempty.symm.trans he

end PageRequest

end ItemStore
