import ItemStore.Proofs.CriteriaKey
import ItemStore.Proofs.ReadPaths

/-!
# Queries that state a key condition

A query whose criteria state a key condition for its table, or for its index, is never refused: it
is compiled, and the store splits it into that key condition.  However it is cut into pages, it then
lists the items whose keys satisfy the key condition (`Listing.drain_query_of_states`).  Only the
table that is queried has to have numbers in its keys where numbers belong.
-/

namespace ItemStore

/-! ## Compiled values -/

theorem Criteria.numericValues_compile {cs : Criteria} {bound : BoundCondition}
    (h : cs.compile = .ok bound) (hn : cs.Numeric) : NumericValues bound.values := by
  obtain ⟨values, hvalues, h⟩ := bind_eq_ok_iff.mp h
  cases h
  intro b hb
  rcases BoundCondition.mem_bindAll hvalues hb with hnone | hb
  · exact (List.not_mem_nil hnone).elim
  · exact hn b hb

/-- Without a filter, the criteria of the key are compiled alone. -/
theorem Repository.compile_key {cs : Criteria} {bound : BoundCondition}
    (h : cs.compile = .ok bound) : compile (some cs) none = .ok (bound, none) := by
  have hkey : Criteria.compileOptional (some cs) = .ok bound := h
  rw [compile, hkey]
  rfl

/-! ## What is listed -/

namespace Store

variable {s : Store} {t : IndexedTable} {index : Option KeySchema} {c : Condition}
  {k : KeyCondition}

/-- A query without a filter serves the items whose keys satisfy its key condition. -/
theorem exists_querySource {r : Query} (ht : s.table r.table = .ok t) (h : t.Proper index)
    (hindex : t.named r.index = some index) (hfilter : r.filter = none)
    (hvalues : NumericValues r.values) (hc : readCondition r.keyCondition = .ok c)
    (hk : KeyCondition.ofCondition (t.schemaOf index) r.values c = .ok k) :
    ∃ src items, s.querySource r = .ok src ∧
      t.Lists index (r.forward.getD true) ((t.schemaOf index).selects k) items ∧
      src.Serves r.values (fun _ => true) items := by
  have hkeeps : Keeps none r.values fun _ => true := ⟨nofun, fun _ _ => rfl⟩
  cases hname : r.index with
  | none =>
      rw [hname] at hindex
      obtain rfl : none = index := Option.some.inj hindex
      refine ⟨_, _, ?_, h.lists_matching_selects hvalues hk _, serves_matching h hkeeps⟩
      have hk : KeyCondition.ofCondition t.table.schema r.values c = .ok k := hk
      simp only [querySource, ht, hfilter, hname, readFilter, hc, hk, bind, Except.bind,
        Except.mapError]
  | some name =>
      rw [hname] at hindex
      obtain ⟨i, hi, rfl⟩ := Option.map_eq_some_iff.mp hindex
      have hi : t.index name = .ok i := by rw [IndexedTable.index, hi]
      refine ⟨_, _, ?_, h.lists_viewOf (fun _ _ _ => IndexedTable.matchesKey_of_positionIn) _,
        serves_of_view (serves_readIndex h _ _) hkeeps⟩
      have hk : KeyCondition.ofCondition i r.values c = .ok k := hk
      simp only [querySource, ht, hfilter, hname, readFilter, hi, hc, hk, bind, Except.bind,
        Except.mapError]

end Store

namespace Listing

variable {Draft Out : Type} {r : Repository Draft Out} {s : Store} {t : IndexedTable}
  {index : Option KeySchema} {k : KeyCondition}

/-- A query whose criteria state a key condition lists the items whose keys satisfy it, however it
is cut into pages. -/
theorem drain_query_of_states {key : Criteria} {o : QueryOptions} (hnames : key.Named)
    (hvalues : key.Unambiguous) (hnumeric : key.Numeric) (hfilter : o.filter = none)
    (ht : s.table r.table = .ok t) (h : t.Proper index) (hindex : t.named o.index = some index)
    (hs : ∀ a ∈ (t.schemaOf index).sort, a.name ≠ (t.schemaOf index).partition.name)
    (hk : Criteria.States (t.schemaOf index) key.entries k) :
    ∃ items, t.Lists index o.forward ((t.schemaOf index).selects k) items ∧
      ∀ p : Paging, ∀ fuel, s.enoughSteps ≤ fuel →
        drain (r.paged p) Store.client fuel
            ((r.paged p).query key { o with pageSize := p.call }) (s.paged p) =
            (Cursor.reports (report r) items, s.paged p) ∧
          finishes (r.paged p) Store.client fuel
            ((r.paged p).query key { o with pageSize := p.call }) (s.paged p) = true := by
  have hne : key.entries ≠ [] := by
    intro hempty
    rw [hempty] at hk
    cases hk
  obtain ⟨bound, c, hbound, hc⟩ := Criteria.exists_compiled hne hnames hvalues
  have hsplit := (Criteria.ofCondition_compiled_iff hnames hs hbound hc).mpr hk
  have hcompile : Repository.compile (ListRequest.query key o).key
      (ListRequest.query key o).filter = .ok (bound, none) := by
    rw [ListRequest.key, ListRequest.filter, hfilter]
    exact Repository.compile_key hbound
  obtain ⟨src, items, hsource, hlists, hserves⟩ := Store.exists_querySource (s := s)
    (r := ⟨r.table, o.index, bound.text, none, bound.values, some o.forward, r.limit o.pageSize,
      [], r.consistentRead o.consistentRead⟩) ht h hindex rfl
    (Criteria.numericValues_compile hbound hnumeric) (Store.readCondition_eq_ok_iff.mpr hc) hsplit
  refine ⟨items, hlists, ?_⟩
  intro p fuel hfuel
  have hle : items.length ≤ s.itemTotal :=
    hlists.length_le.trans (Store.length_items_le_itemTotal ht)
  rw [Store.enoughSteps] at hfuel
  have hdrain := drain_paged_of_serves (r := r) (q := .query key o) hcompile hsource hserves p
    (by omega : 2 * (items.length + 2) ≤ fuel)
  have hall : items.filter (fun _ => true) = items := List.filter_eq_self.mpr fun _ _ => rfl
  rwa [hall] at hdrain

end Listing

end ItemStore
