import ItemStore.Proofs.ReadPaths

/-!
# Runs of a store

A run starts from an empty store and takes one operation after another: a table is created, an item
is put, or a text of items is loaded.  Operations may fail; a creation or a put that fails changes
nothing, and a load that fails keeps the items before the one that it failed at.  What an operation
does to a table is said once, by `table_perform`: it declares the table, or it puts the items into
it that `adds` names.

The keys of a table and of its indexes are read off one list of declarations, of which the first one
of a name counts (`IndexedTable.Coherent`).  Every operation keeps that, and so it holds after every
run, `coherent_run`, whatever the operations were and whichever of them failed.
-/

namespace ItemStore

/-! ## Keys that are declared together -/

namespace KeyAttribute

/-- The attribute has the type that its name is first declared with. -/
def Declared (definitions : List AttributeDefinition) (a : KeyAttribute) : Prop :=
  definitions.find? (fun d => d.name == a.name) = some ⟨a.name, a.type⟩

/-- One name is declared with one type. -/
theorem Declared.type_eq {definitions : List AttributeDefinition} {a b : KeyAttribute}
    (ha : a.Declared definitions) (hb : b.Declared definitions) (h : a.name = b.name) :
    a.type = b.type := by
  rw [Declared, h, hb] at ha
  exact (congrArg AttributeDefinition.type (Option.some.inj ha)).symm

end KeyAttribute

namespace KeySchema

variable {definitions : List AttributeDefinition} {s : KeySchema}

/-- The key is one of two different attributes, or of one, with the types that are declared. -/
structure Declared (definitions : List AttributeDefinition) (s : KeySchema) : Prop where
  types : ∀ a ∈ s.attributes, a.Declared definitions
  distinct : ∀ a ∈ s.sort, a.name ≠ s.partition.name

/-- An item that has a key has each attribute of it with its type, and its key keeps them. -/
theorem exists_value_of_extract {item : Item} {k : SortKey × SortKey}
    (h : s.extract item = .ok k) {a : KeyAttribute} (ha : a ∈ s.attributes) :
    ∃ v, NameMap.get? item a.name = some v ∧ v.kind = a.type.kind ∧
      NameMap.get? (s.keyOf item) a.name = some v := by
  obtain ⟨v, hv, hkind⟩ := KeyAttribute.not_unfit_iff.mp (not_unfit_of_extract h ha)
  refine ⟨v, hv, hkind, ?_⟩
  rw [get?_keyOf, if_pos (name_mem_names ha), hv]

theorem declared_of_attributeOf {e : KeyElement} {a : KeyAttribute}
    (h : attributeOf definitions e = .ok a) : a.name = e.name ∧ a.Declared definitions := by
  rw [attributeOf] at h
  split at h
  next d hd =>
      cases h
      have hname : d.name = e.name := by simpa using List.find?_some hd
      refine ⟨hname, ?_⟩
      rw [KeyAttribute.Declared, hname, hd, ← hname]
  next => cases h

theorem declared_of_ofElements {elements : List KeyElement}
    (h : ofElements definitions elements = .ok s) : s.Declared definitions := by
  unfold ofElements at h
  split at h
  next name =>
      obtain ⟨pk, hpk, h⟩ := bind_eq_ok_iff.mp h
      cases h
      refine ⟨?_, nofun⟩
      intro a ha
      obtain rfl : a = pk := by simpa [attributes] using ha
      exact (declared_of_attributeOf hpk).2
  next name sortName =>
      split at h
      · cases h
      next hne =>
          obtain ⟨pk, hpk, h⟩ := bind_eq_ok_iff.mp h
          obtain ⟨sk, hsk, h⟩ := bind_eq_ok_iff.mp h
          cases h
          obtain ⟨hpkname, hpk⟩ := declared_of_attributeOf hpk
          obtain ⟨hskname, hsk⟩ := declared_of_attributeOf hsk
          constructor
          · intro a ha
            obtain rfl | rfl : a = pk ∨ a = sk := by simpa [attributes] using ha
            · exact hpk
            · exact hsk
          · intro a ha heq
            obtain rfl : sk = a := Option.some.inj ha
            exact hne (hpkname.symm.trans (heq.symm.trans hskname))
  next => cases h

end KeySchema

namespace IndexedTable

/-- The key of the table and the keys of its indexes. -/
def schemas (t : IndexedTable) : List KeySchema := t.table.schema :: t.indexes.map (·.2)

/-- All keys of the table are read off one list of declarations. -/
def Coherent (t : IndexedTable) : Prop :=
  ∃ definitions, ∀ s ∈ t.schemas, s.Declared definitions

/-- A key attribute has one type in all keys of the table. -/
theorem Coherent.type_eq {t : IndexedTable} (h : t.Coherent) {s s' : KeySchema}
    (hs : s ∈ t.schemas) (hs' : s' ∈ t.schemas) {a b : KeyAttribute} (ha : a ∈ s.attributes)
    (hb : b ∈ s'.attributes) (hname : a.name = b.name) : a.type = b.type := by
  obtain ⟨definitions, hdeclared⟩ := h
  exact ((hdeclared s hs).types a ha).type_eq ((hdeclared s' hs').types b hb) hname

/-- The table after some puts. -/
def puts (t : IndexedTable) (items : List Item) : IndexedTable :=
  { t with table := items.foldl Table.attempt t.table }

@[simp] theorem schema_puts (t : IndexedTable) (items : List Item) :
    (t.puts items).table.schema = t.table.schema := by
  rw [puts]
  induction items generalizing t with
  | nil => rfl
  | cons item items ih => exact (ih ⟨t.table.attempt item, t.indexes⟩).trans (by simp)

theorem Coherent.puts {t : IndexedTable} (h : t.Coherent) (items : List Item) :
    (t.puts items).Coherent := by
  have hschemas : (t.puts items).schemas = t.schemas := by
    rw [schemas, schema_puts]
    rfl
  rwa [Coherent, hschemas]

end IndexedTable

/-! ## Operations -/

namespace Store

variable {s s' : Store} {name : String} {t t' : IndexedTable}

/-- What changes a store. -/
inductive Operation where
  | createTable (r : CreateTable)
  | putItem (r : PutItem)
  | load (table text : String)

/-- The store after an operation, whether it succeeds or fails. -/
def perform (s : Store) : Operation → Store
  | .createTable r =>
      match s.createTable r with
      | .ok (_, s') => s'
      | .error _ => s
  | .putItem r => s.attempt r
  | .load table text => (s.load table text).2

/-- The store after a run. -/
def run (s : Store) (ops : List Operation) : Store := ops.foldl perform s

/-- The items that an operation puts into a table.  A load puts the items before the first one
that has no key. -/
def adds (s : Store) (name : String) : Operation → List Item
  | .createTable _ => []
  | .putItem r =>
      if r.table = name then
        match s.putItem r with
        | .ok _ => [r.item]
        | .error _ => []
      else []
  | .load table text =>
      if table = name then
        match Item.listOfText text, s.table name with
        | .ok items, .ok t => items.takeWhile fun x => (t.table.schema.key? x).isSome
        | _, _ => []
      else []

theorem run_append (s : Store) (ops ops' : List Operation) :
    s.run (ops ++ ops') = (s.run ops).run ops' := List.foldl_append

theorem Reachable.perform (h : s.Reachable) (op : Operation) : (s.perform op).Reachable := by
  cases op with
  | createTable r =>
      rw [Store.perform]
      split
      next hcreate => exact h.createTable hcreate
      next => exact h
  | putItem r => exact h.attempt r
  | load table text => exact h.load

theorem reachable_run (defaultLimit : Option Nat) (ops : List Operation) :
    ((empty defaultLimit).run ops).Reachable := by
  induction ops using List.reverseRecOn with
  | nil => exact .empty defaultLimit
  | append_singleton ops op ih =>
      rw [run_append]
      exact ih.perform op

/-! ### What an operation does -/

/-- What an operation can do to a store, with the items that it puts into each table: nothing, or
put items into one table, or declare a table. -/
inductive Effect (s : Store) (adds : String → List Item) : Store → Prop
  | nothing : (∀ name, adds name = []) → Effect s adds s
  | puts {name : String} {t : IndexedTable} : s.table name = .ok t →
      (∀ other, other ≠ name → adds other = []) →
      Effect s adds { s with tables := NameMap.set s.tables name (t.puts (adds name)) }
  | declares {name : String} {t : IndexedTable} : (∀ t, s.table name ≠ .ok t) →
      (∀ other, adds other = []) → t.table = Table.empty t.table.schema → t.Coherent →
      Effect s adds { s with tables := NameMap.set s.tables name t }

theorem declared_of_declareIndexes {definitions : List AttributeDefinition}
    {indexes indexes' : NameMap KeySchema} {ds : List IndexDefinition}
    (h : declareIndexes definitions indexes ds = .ok indexes')
    (hindexes : ∀ i ∈ indexes, i.2.Declared definitions) :
    ∀ i ∈ indexes', i.2.Declared definitions := by
  induction ds generalizing indexes with
  | nil =>
      cases h
      exact hindexes
  | cons d rest ih =>
      obtain ⟨schema, hschema, h⟩ := bind_eq_ok_iff.mp h
      split at h
      · cases h
      · refine ih h ?_
        intro i hi
        rcases NameMap.mem_set hi with rfl | hi
        · exact KeySchema.declared_of_ofElements (mapError_eq_ok_iff.mp hschema)
        · exact hindexes i hi

theorem effect_createTable (s : Store) (r : CreateTable) :
    Effect s (fun name => s.adds name (.createTable r)) (s.perform (.createTable r)) := by
  rw [perform]
  split
  next a s' hcreate =>
      rw [createTable] at hcreate
      split at hcreate
      · cases hcreate
      · obtain ⟨schema, hschema, hcreate⟩ := bind_eq_ok_iff.mp hcreate
        obtain ⟨indexes, hindexes, hcreate⟩ := bind_eq_ok_iff.mp hcreate
        split at hcreate
        · cases hcreate
        next hnew =>
            cases hcreate
            refine .declares ?_ (fun _ => rfl) rfl ⟨r.definitions, ?_⟩
            · intro t ht
              rw [table_eq_ok_iff.mp ht] at hnew
              exact hnew rfl
            · intro schema' hschema'
              rcases List.mem_cons.mp hschema' with rfl | hindex
              · exact KeySchema.declared_of_ofElements (mapError_eq_ok_iff.mp hschema)
              · obtain ⟨i, hi, rfl⟩ := List.mem_map.mp hindex
                have hnone : ∀ j ∈ ([] : NameMap KeySchema), j.2.Declared r.definitions :=
                  fun j hj => (List.not_mem_nil hj).elim
                exact declared_of_declareIndexes hindexes hnone i hi
  next => exact .nothing fun _ => rfl

theorem effect_putItem (s : Store) (r : PutItem) :
    Effect s (fun name => s.adds name (.putItem r)) (s.perform (.putItem r)) := by
  have hother : ∀ name, name ≠ r.table → s.adds name (.putItem r) = [] :=
    fun name hname => if_neg (Ne.symm hname)
  rw [perform, attempt]
  split
  next a s' hput =>
      have hadds : s.adds r.table (.putItem r) = [r.item] := by rw [adds, if_pos rfl, hput]
      obtain ⟨t, ht, hput⟩ := bind_eq_ok_iff.mp hput
      obtain ⟨⟨previous, t'⟩, ht', hput⟩ := bind_eq_ok_iff.mp hput
      cases hput
      have hattempt : t.table.attempt r.item = t' := by
        rw [Table.attempt, mapError_eq_ok_iff.mp ht']
      have heffect := Effect.puts ht hother
      rwa [hadds, IndexedTable.puts, List.foldl_cons, hattempt] at heffect
  next e hput =>
      refine .nothing fun name => ?_
      rw [adds, hput]
      split <;> rfl

theorem put_isOk_iff {t : Table} {item : Item} :
    (∃ result, t.put item = .ok result) ↔ (t.schema.key? item).isSome = true := by
  rw [Option.isSome_iff_exists]
  constructor
  · rintro ⟨⟨previous, t'⟩, hput⟩
    obtain ⟨pk, sk, hx, -⟩ := Table.put_eq_ok hput
    exact ⟨_, KeySchema.key?_of_extract hx⟩
  · rintro ⟨k, hk⟩
    obtain ⟨pk, sk, hx, -⟩ := KeySchema.exists_extract_of_key? hk
    exact ⟨_, Table.put_of_extract hx⟩

theorem putAll_eq_foldl (t : Table) (items : List Item) :
    (putAll t items).2 =
      (items.takeWhile fun x => (t.schema.key? x).isSome).foldl Table.attempt t := by
  induction items generalizing t with
  | nil => rfl
  | cons item rest ih =>
      rw [putAll, List.takeWhile_cons]
      split
      next previous t' hput =>
          have hattempt : t.attempt item = t' := by rw [Table.attempt, hput]
          have hschema : t'.schema = t.schema := hattempt ▸ Table.schema_attempt t item
          rw [if_pos (put_isOk_iff.mp ⟨_, hput⟩), List.foldl_cons, hattempt, ih, hschema]
      next e hput =>
          have hnone : ¬ (t.schema.key? item).isSome = true := by
            rw [← put_isOk_iff, hput]
            rintro ⟨result, hok⟩
            cases hok
          rw [if_neg hnone]
          rfl

theorem effect_load (s : Store) (table text : String) :
    Effect s (fun name => s.adds name (.load table text)) (s.perform (.load table text)) := by
  have hother : ∀ name, name ≠ table → s.adds name (.load table text) = [] :=
    fun name hname => if_neg (Ne.symm hname)
  rw [perform, load]
  split
  next e htext =>
      refine .nothing fun name => ?_
      rw [adds, htext]
      split <;> rfl
  next items htext =>
      split
      next e htable =>
          refine .nothing fun name => ?_
          by_cases hname : name = table
          · rw [adds, htext, if_pos hname.symm, hname, htable]
          · exact hother name hname
      next t ht =>
          have hadds : s.adds table (.load table text) =
              items.takeWhile fun x => (t.table.schema.key? x).isSome := by
            rw [adds, if_pos rfl, htext, ht]
          have heffect := Effect.puts ht hother
          rwa [hadds, IndexedTable.puts, ← putAll_eq_foldl] at heffect

theorem effect_perform (s : Store) (op : Operation) :
    Effect s (fun name => s.adds name op) (s.perform op) := by
  cases op with
  | createTable r => exact s.effect_createTable r
  | putItem r => exact s.effect_putItem r
  | load table text => exact s.effect_load table text

/-! ### What an operation does to a table -/

theorem table_set (s : Store) (name other : String) (t : IndexedTable) :
    Store.table { s with tables := NameMap.set s.tables name t } other =
      if other = name then .ok t else s.table other := by
  rw [table, table, NameMap.get?_set]
  by_cases h : other = name
  · rw [if_pos h, if_pos h]
  · rw [if_neg h, if_neg h]

/-- An operation puts the items into the tables that there are. -/
theorem table_perform (ht : s.table name = .ok t) (op : Operation) :
    (s.perform op).table name = .ok (t.puts (s.adds name op)) := by
  have heffect := s.effect_perform op
  generalize s.perform op = s' at heffect
  cases heffect with
  | nothing hadds =>
      rw [hadds name]
      exact ht
  | @puts changed u hu hother =>
      rw [table_set]
      split
      next hname =>
          subst hname
          cases ht.symm.trans hu
          rfl
      next hname =>
          rw [hother name hname]
          exact ht
  | @declares changed u hnew hadds _ _ =>
      rw [table_set, if_neg, hadds name]
      · exact ht
      · rintro rfl
        exact hnew t ht

/-- Nothing is put into a table that there is not. -/
theorem adds_of_no_table (hnew : ∀ t, s.table name ≠ .ok t) (op : Operation) :
    s.adds name op = [] := by
  have heffect := s.effect_perform op
  generalize s.perform op = s' at heffect
  cases heffect with
  | nothing hadds => exact hadds name
  | @puts changed u hu hother =>
      refine hother name ?_
      rintro rfl
      exact hnew u hu
  | declares _ hadds => exact hadds name

/-- A table that is new is empty, and its keys are declared together. -/
theorem table_perform_new (hnew : ∀ t, s.table name ≠ .ok t) {op : Operation}
    (ht' : (s.perform op).table name = .ok t') :
    t'.table = Table.empty t'.table.schema ∧ t'.Coherent := by
  have heffect := s.effect_perform op
  generalize s.perform op = s' at heffect ht'
  cases heffect with
  | nothing => exact absurd ht' (hnew t')
  | @puts changed u hu =>
      rw [table_set] at ht'
      split at ht'
      next hname =>
          subst hname
          exact absurd hu (hnew u)
      next => exact absurd ht' (hnew t')
  | @declares changed u _ _ hempty hcoherent =>
      rw [table_set] at ht'
      split at ht'
      next =>
          cases ht'
          exact ⟨hempty, hcoherent⟩
      next => exact absurd ht' (hnew t')

/-! ## Runs -/

/-- The items that a run puts into a table, in order. -/
def written (s : Store) (name : String) : List Operation → List Item
  | [] => []
  | op :: ops => s.adds name op ++ (s.perform op).written name ops

theorem written_concat (s : Store) (name : String) (ops : List Operation) (op : Operation) :
    s.written name (ops ++ [op]) = s.written name ops ++ (s.run ops).adds name op := by
  induction ops generalizing s with
  | nil => exact List.append_nil _
  | cons first ops ih =>
      rw [List.cons_append, written, ih, ← List.append_assoc]
      rfl

/-- Nothing is put into a table before it is created, and it is empty then. -/
theorem table_eq_ofPuts (defaultLimit : Option Nat) (ops : List Operation) :
    (∀ t, ((empty defaultLimit).run ops).table name = .ok t →
      t.table = Table.ofPuts t.table.schema ((empty defaultLimit).written name ops)) ∧
    ((∀ t, ((empty defaultLimit).run ops).table name ≠ .ok t) →
      (empty defaultLimit).written name ops = []) := by
  induction ops using List.reverseRecOn with
  | nil => exact ⟨nofun, fun _ => rfl⟩
  | append_singleton ops op ih =>
      rw [run_append, written_concat]
      by_cases hold : ∃ u, ((empty defaultLimit).run ops).table name = .ok u
      · obtain ⟨u, hu⟩ := hold
        have htable := table_perform hu op
        refine ⟨?_, fun hnone => absurd htable (hnone _)⟩
        intro t ht
        cases htable.symm.trans ht
        rw [IndexedTable.schema_puts, Table.ofPuts, List.foldl_append, ← Table.ofPuts, ← ih.1 u hu]
        rfl
      · have hnew := not_exists.mp hold
        rw [ih.2 hnew, List.nil_append, adds_of_no_table hnew op]
        exact ⟨fun t ht => (table_perform_new hnew ht).1, fun _ => rfl⟩

theorem coherent_run (defaultLimit : Option Nat) (ops : List Operation)
    (ht : ((empty defaultLimit).run ops).table name = .ok t) : t.Coherent := by
  induction ops using List.reverseRecOn generalizing t with
  | nil => cases ht
  | append_singleton ops op ih =>
      rw [run_append] at ht
      by_cases hold : ∃ u, ((empty defaultLimit).run ops).table name = .ok u
      · obtain ⟨u, hu⟩ := hold
        cases (table_perform hu op).symm.trans ht
        exact (ih hu).puts _
      · exact (table_perform_new (not_exists.mp hold) ht).2

/-- A scan of a table whose limit is not below the number of its items reads all of them. -/
theorem exists_scan_all (hs : s.Sound) {r : Scan} (ht : s.table r.table = .ok t)
    (hindex : r.index = none) (hfilter : readFilter r.filter = .ok none) (hstart : r.startKey = [])
    {limit : Option Nat} (hlimit : s.pageLimit r.limit = .ok limit)
    (hlength : ∀ n ∈ limit, t.table.items.length ≤ n) :
    ∃ a, s.scan r = .ok a ∧ a.items.Perm t.table.items := by
  have hall : (inOrder true (t.viewOf none fun _ => true)).filter
      (fun e => View.beyond true none e.1) = inOrder true (t.viewOf none fun _ => true) :=
    List.filter_eq_self.mpr fun _ _ => rfl
  -- every item has a position, so that the view shows all of them
  have hperm : ((t.viewOf none fun _ => true).map (·.2)).Perm t.table.items := by
    refine (t.viewOf_perm none _).trans (List.Perm.of_eq (List.filter_eq_self.mpr ?_))
    intro x hx
    obtain ⟨pk, sk, hxk⟩ := (hs _ (mem_of_table ht)).extract_of_mem hx
    exact IndexedTable.shows_eq_true_iff.mpr
      ⟨[pk, sk], KeySchema.position_eq_ok_iff.mpr ⟨pk, sk, hxk, rfl⟩, rfl⟩
  have hcut : (Page.cut limit (t.keyIn none) ((t.viewOf none fun _ => true).map (·.2))).items =
      (t.viewOf none fun _ => true).map (·.2) := by
    cases limit with
    | none => rfl
    | some n => exact List.take_of_length_le (hperm.length_eq.trans_le (hlength n rfl))
  have hnamed : t.named r.index = some none := by rw [hindex]; rfl
  rw [scan_eq_page hfilter hstart, PageRequest.page_scan ht hnamed hlimit,
    View.fetch_of_startAt rfl, hall, map_inOrder]
  refine ⟨_, rfl, ?_⟩
  show (Page.cut limit (t.keyIn none) ((t.viewOf none fun _ => true).map (·.2))).items.Perm _
  rw [hcut]
  exact hperm

/-- Items whose positions compare equal have the same key. -/
theorem key?_eq_of_compare_eq {schema : KeySchema} {x y : Item} {p q : Position}
    (hp : schema.position x = .ok p) (hq : schema.position y = .ok q) (h : p.compare q = .eq) :
    schema.key? x = schema.key? y := by
  obtain ⟨pk, sk, hx, rfl⟩ := KeySchema.position_eq_ok_iff.mp hp
  obtain ⟨pk', sk', hy, rfl⟩ := KeySchema.position_eq_ok_iff.mp hq
  rw [Position.compare, List.compareLex_cons_cons, Ordering.then_eq_eq, List.compareLex_cons_cons,
    Ordering.then_eq_eq] at h
  rw [KeySchema.key?_of_extract hx, KeySchema.key?_of_extract hy,
    (SortKey.compare_eq_iff pk pk').mp h.1, (SortKey.compare_eq_iff sk sk').mp h.2.1]

/-- What holds of every table after every run, whichever of its operations failed.

The sort attribute of a key, of the table or of an index, is not its partition attribute, and an
attribute has one type in all keys of the table.  Every item has all key attributes of the table
with their types: it has a position, and its key keeps all of them.  Where the number texts in the
keys are numbers, no two items have positions that compare equal.  And the number of items is the
number of those that a scan shows, if its limit does not cut it off. -/
theorem run_keeps_keys (defaultLimit : Option Nat) (ops : List Operation) (name : String)
    (t : IndexedTable) (ht : ((empty defaultLimit).run ops).table name = .ok t) :
    (∀ s ∈ t.schemas, ∀ a ∈ s.sort, a.name ≠ s.partition.name) ∧
    (∀ s ∈ t.schemas, ∀ s' ∈ t.schemas, ∀ a ∈ s.attributes, ∀ b ∈ s'.attributes,
      a.name = b.name → a.type = b.type) ∧
    (∀ x ∈ t.table.items,
      (∀ a ∈ t.table.schema.attributes, ∃ v, NameMap.get? x a.name = some v ∧
        v.kind = a.type.kind ∧ NameMap.get? (t.table.schema.keyOf x) a.name = some v) ∧
      ∃ p, t.table.schema.position x = .ok p) ∧
    (t.table.Numeric → t.table.items.Pairwise fun x y => ∀ p q,
      t.table.schema.position x = .ok p → t.table.schema.position y = .ok q →
        p.compare q ≠ .eq) ∧
    ((empty defaultLimit).run ops).itemCount name = .ok t.table.items.length ∧
    ∀ r : Scan, r.table = name → r.index = none → readFilter r.filter = .ok none →
      r.startKey = [] → ∀ limit, ((empty defaultLimit).run ops).pageLimit r.limit = .ok limit →
        (∀ n ∈ limit, t.table.items.length ≤ n) →
        ∃ a, ((empty defaultLimit).run ops).scan r = .ok a ∧ a.items.Perm t.table.items ∧
          ((empty defaultLimit).run ops).itemCount name = .ok a.items.length := by
  have hsound : ((empty defaultLimit).run ops).Sound := (reachable_run defaultLimit ops).sound
  have htable : t.table.Sound := hsound _ (mem_of_table ht)
  have hcoherent := coherent_run defaultLimit ops ht
  have hcount : ((empty defaultLimit).run ops).itemCount name = .ok t.table.items.length := by
    rw [itemCount, ht, ← htable.counted]
    rfl
  refine ⟨?_, fun s hs s' hs' a ha b hb => hcoherent.type_eq hs hs' ha hb, ?_, ?_, hcount, ?_⟩
  · obtain ⟨definitions, hdeclared⟩ := hcoherent
    exact fun s hs => (hdeclared s hs).distinct
  · intro x hx
    obtain ⟨pk, sk, hxk⟩ := htable.extract_of_mem hx
    exact ⟨fun a ha => KeySchema.exists_value_of_extract hxk ha, [pk, sk],
      KeySchema.position_eq_ok_iff.mpr ⟨pk, sk, hxk, rfl⟩⟩
  · intro hn
    refine (htable.pairwise_key? hn).imp ?_
    intro x y hne p q hp hq heq
    exact hne (key?_eq_of_compare_eq hp hq heq)
  · intro r hname hindex hfilter hstart limit hlimit hlength
    subst hname
    obtain ⟨a, ha, hperm⟩ := exists_scan_all hsound ht hindex hfilter hstart hlimit hlength
    exact ⟨a, ha, hperm, by rw [hcount, hperm.length_eq]⟩

/-- A run in which a name is declared twice, a table is created twice, and a load fails at an item
without a key. -/
def readingOperations : List Operation :=
  let creation : CreateTable := ⟨"readings", [⟨"device", .partition⟩, ⟨"at", .sort⟩],
    [⟨"device", .string⟩, ⟨"at", .number⟩, ⟨"device", .number⟩],
    [⟨"by-time", [⟨"at", .partition⟩, ⟨"device", .sort⟩]⟩]⟩
  [.createTable creation, .putItem ⟨"readings", Table.reading "1" "first"⟩, .createTable creation,
    .load "readings" "[\x7b\"device\":\x7b\"S\":\"d\"\x7d,\"at\":\x7b\"N\":\"2\"\x7d\x7d,\x7b\x7d]"]

/-- The table after the run. -/
def loadedReadings : IndexedTable :=
  ⟨Table.ofPuts Table.readingSchema
    [Table.reading "1" "first", [("at", .number "2"), ("device", .string "d")]],
    [("by-time", ⟨⟨"at", .number⟩, some ⟨"device", .string⟩⟩)]⟩

theorem run_keeps_keys_readings :
    ((empty none).run readingOperations).table "readings" = .ok loadedReadings ∧
    loadedReadings.table.Numeric ∧
    ∃ a, ((empty none).run readingOperations).scan ⟨"readings", none, none, [], none, [], none⟩ =
      .ok a ∧ ((empty none).run readingOperations).itemCount "readings" = .ok 2 ∧
      a.items.length = 2 := by
  have ht : ((empty none).run readingOperations).table "readings" = .ok loadedReadings := by
    decide +kernel
  obtain ⟨-, -, -, -, hcount, hscan⟩ := run_keeps_keys none readingOperations "readings" _ ht
  have hlength : loadedReadings.table.items.length = 2 := by decide +kernel
  obtain ⟨a, ha, hperm, -⟩ := hscan ⟨"readings", none, none, [], none, [], none⟩ rfl rfl rfl rfl
    none (by decide +kernel) (fun n hn => absurd hn (Option.not_mem_none n))
  rw [hlength] at hcount
  exact ⟨ht, by decide +kernel, a, ha, hcount, hperm.length_eq.trans hlength⟩

end Store

end ItemStore
