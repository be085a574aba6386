import ItemStore.Proofs.Paging
import ItemStore.Proofs.TableMap

/-!
# Pages of a partition

A query reads the items of one partition that match its condition, in the order of their own sort
keys or against it.  What a query reads after a start key is what lies strictly beyond the start's
sort key (`Sound.query_eq`), whether or not the start key is the key of an item; since the key
attributes of an item carry its key, the pages of a query serve the matching items
(`Sound.serves_query`), and following them reads each of these once.
-/

namespace ItemStore

/-- The sort key of the first item is below the sort key of the second. -/
def KeySchema.SortsBelow (s : KeySchema) (x y : Item) : Prop :=
  ∃ p q, s.sortValue? x = some p ∧ s.sortValue? y = some q ∧ p.compare q = .lt

/-- Whether the sort key of an item lies strictly beyond a value in reading order. -/
def KeySchema.beyond (s : KeySchema) (forward : Bool) (q : KeyValue) (x : Item) : Bool :=
  (s.sortValue? x).any fun p => p.compare q == if forward then .gt else .lt

/-- Whether the sort key of an item satisfies a condition. -/
def KeySchema.satisfies (s : KeySchema) (c : Option SortCondition) (x : Item) : Bool :=
  c.all fun c =>
    match s.readSort x with
    | .ok sk => c.holds sk
    | .error _ => false

theorem KeySchema.SortsBelow.asymm {s : KeySchema} (x y : Item) :
    s.SortsBelow x y → ¬ s.SortsBelow y x := by
  rintro ⟨p, q, hp, hq, hlt⟩ ⟨q', p', hq', hp', hlt'⟩
  obtain rfl : p = p' := Option.some.inj (hp.symm.trans hp')
  obtain rfl : q = q' := Option.some.inj (hq.symm.trans hq')
  rw [Std.OrientedCmp.gt_iff_lt.mpr hlt] at hlt'
  cases hlt'

namespace Table

variable {t : Table} {c : KeyCondition} {forward : Bool} {v : Value}

/-- The entries that a query selects. -/
def selected (t : Table) (c : KeyCondition) : Partition :=
  (t.partition c.partition).filter fun e => (c.sort.map fun s => s.holds e.1).getD true

/-- The items that a query selects, in increasing order. -/
def matching (t : Table) (c : KeyCondition) : List Item := (t.selected c).map (·.2)

/-- A query cuts its page off what comes after the start. -/
theorem query_of_startOf {limit : Option Nat} {startKey : Option Item} {start : Option SortKey}
    (h : t.startOf startKey = .ok start) :
    t.query c forward limit startKey = .ok (Page.cut limit t.schema.keyOf
      (((inOrder forward (t.selected c)).filter fun e => after forward start e.1).map (·.2))) := by
  have hfilter : (inOrder forward (t.partition c.partition)).filter
      (fun e => after forward start e.1 && (c.sort.map fun s => s.holds e.1).getD true) =
      (inOrder forward (t.selected c)).filter fun e => after forward start e.1 := by
    rw [selected, ← filter_inOrder, List.filter_filter]
  rw [query, h, Page.cut, ← View.upTo_map, ← hfilter]
  rfl

/-! ## The partition of a value -/

theorem partitionOf_eq_iff_ofValue {k : SortKey} (hk : k ≠ .absent) (hkn : k.numeric = true)
    (hv : (SortKey.ofValue v).numeric = true) :
    partitionOf k.toValue = partitionOf v ↔ k.value = (SortKey.ofValue v).value := by
  cases v with
  | string s => exact partitionOf_eq_iff (b := .string s) hkn hv
  | number n => exact partitionOf_eq_iff (b := .number n) hkn hv
  | binary b => exact partitionOf_eq_iff (b := .binary b) hkn hv
  | _ =>
      -- values of the other types are the key of no partition
      cases k with
      | absent => exact absurd rfl hk
      | string s | binary b => simp [SortKey.toValue, partitionOf, SortKey.ofValue, SortKey.value]
      | number n =>
          obtain ⟨d, hd, -⟩ := Decimal.exists_normal_of_isNumber hkn
          simp [SortKey.toValue, partitionOf, SortKey.ofValue, SortKey.value, hd]

/-- In tables whose partitions are told apart by a property of the items, the items with the
property are those of one partition. -/
theorem filter_itemsOf {p : Item → Bool} {ps : List (Value × Partition)}
    (hps : (ps.map (·.1)).Nodup) (hp : ∀ q ∈ ps, ∀ e ∈ q.2, p e.2 = true ↔ q.1 = v) :
    (itemsOf ps).filter p = (partitionAt ps v).map (·.2) := by
  induction ps with
  | nil => rfl
  | cons q rest ih =>
      obtain ⟨hhead, htail⟩ := List.nodup_cons.mp hps
      have hq := hp q List.mem_cons_self
      have hrest := ih htail fun r hr => hp r (List.mem_cons_of_mem _ hr)
      have hcons : itemsOf (q :: rest) = q.2.map (·.2) ++ itemsOf rest := List.flatMap_cons
      rw [hcons, List.filter_append, hrest, partitionAt_cons]
      by_cases hqv : q.1 = v
      · have hnil : partitionAt rest v = [] := by
          by_contra hne
          refine hhead (List.mem_map.mpr ⟨_, mem_of_partitionAt_ne_nil hne, ?_⟩)
          exact hqv.symm
        have hall : (q.2.map (·.2)).filter p = q.2.map (·.2) := by
          refine List.filter_eq_self.mpr ?_
          intro x hx
          obtain ⟨e, he, rfl⟩ := List.mem_map.mp hx
          exact (hq e he).mpr hqv
        rw [if_pos hqv, hall, hnil, List.map_nil, List.append_nil]
      · have hnone : (q.2.map (·.2)).filter p = [] := by
          refine List.filter_eq_nil_iff.mpr ?_
          intro x hx
          obtain ⟨e, he, rfl⟩ := List.mem_map.mp hx
          exact fun hpe => hqv ((hq e he).mp hpe)
        rw [if_neg hqv, hnone, List.nil_append]

/-- The entries of a partition are the items with its partition key. -/
theorem Sound.partition_eq_filter (ht : t.Sound) (hn : t.Numeric)
    (hv : (SortKey.ofValue v).numeric = true) :
    (t.partition v).map (·.2) = t.items.filter fun x =>
      t.schema.partition.value? x == some (SortKey.ofValue v).value := by
  refine (filter_itemsOf ht.nodup ?_).symm
  intro q hq e he
  obtain ⟨pk, sk, hx, hpart, -⟩ := ht.placed q hq e he
  have hread := (KeySchema.extract_eq_ok_iff.mp hx).1
  have hpk := (KeySchema.numeric_of_extract (hn _ (mem_items.mpr ⟨q, hq, e, he, rfl⟩)) hx).1
  rw [beq_iff_eq, KeyAttribute.value?_eq_some_iff.mpr ⟨pk, hread, rfl⟩, Option.some.injEq,
    ← partitionOf_eq_iff_ofValue (KeyAttribute.ne_absent_of_read hread) hpk hv, hpart]

/-! ## The pages -/

theorem Sound.sortValue?_of_mem (ht : t.Sound) {e : SortKey × Item} (he : e ∈ t.partition v) :
    t.schema.sortValue? e.2 = some e.1.value := by
  obtain ⟨pk, sk, hx, -, hvalue⟩ := ht.placed_partition he
  rw [hvalue]
  exact KeySchema.sortValue?_eq_some_iff.mpr ⟨sk, (KeySchema.extract_eq_ok_iff.mp hx).2, rfl⟩

theorem mem_partition_of_mem_selected {e : SortKey × Item} (he : e ∈ t.selected c) :
    e ∈ t.partition c.partition :=
  (List.mem_filter.mp he).1

/-- The key of an entry lies after a start exactly if the item lies beyond it. -/
theorem Sound.after_eq_beyond (ht : t.Sound) (hn : t.Numeric) {sk : SortKey}
    (hsk : sk.numeric = true) {e : SortKey × Item} (he : e ∈ t.partition v) :
    after forward (some sk) e.1 = t.schema.beyond forward sk.value e.2 := by
  have hkey := ht.numericKeys_partition hn v e he
  simp only [after, KeySchema.beyond, ht.sortValue?_of_mem he, Option.any_some,
    SortKey.compare_eq_compare_value hkey hsk]

/-- A query with a start key reads what lies strictly beyond the start's sort key. -/
theorem Sound.query_eq (ht : t.Sound) (hn : t.Numeric) {limit : Option Nat} {key : Item}
    {pk sk : SortKey} (hx : t.schema.extract key = .ok (pk, sk)) (hsk : sk.numeric = true) :
    t.query c forward limit (some key) = .ok (Page.cut limit t.schema.keyOf
      ((inOrder forward (t.matching c)).filter (t.schema.beyond forward sk.value))) := by
  have hstart : t.startOf (some key) = .ok (some sk) := by
    simp only [startOf, hx]
    rfl
  rw [query_of_startOf hstart, matching, ← map_inOrder, List.filter_map]
  congr 3
  refine List.filter_congr ?_
  intro e he
  exact ht.after_eq_beyond hn hsk (mem_partition_of_mem_selected (mem_inOrder.mp he))

theorem Sound.pairwise_matching (ht : t.Sound) (hn : t.Numeric) :
    (t.matching c).Pairwise t.schema.SortsBelow := by
  have hordered := ht.ordered_partition (ht.numericKeys_partition hn c.partition)
  have hselected : Ordered (t.selected c) := List.Pairwise.filter _ hordered
  refine List.pairwise_map.mpr (hselected.imp_of_mem ?_)
  intro a b ha hb hlt
  exact ⟨_, _, ht.sortValue?_of_mem (mem_partition_of_mem_selected ha),
    ht.sortValue?_of_mem (mem_partition_of_mem_selected hb), hlt⟩

theorem mem_items_of_mem_matching {x : Item} (hx : x ∈ t.matching c) : x ∈ t.items := by
  obtain ⟨e, he, rfl⟩ := List.mem_map.mp hx
  exact mem_items_of_mem_partition (mem_partition_of_mem_selected he)

theorem Sound.extract_of_mem (ht : t.Sound) {x : Item} (hx : x ∈ t.items) :
    ∃ pk sk, t.schema.extract x = .ok (pk, sk) := by
  obtain ⟨p, hp, e, he, rfl⟩ := mem_items.mp hx
  obtain ⟨pk, sk, hx, -⟩ := ht.placed p hp e he
  exact ⟨pk, sk, hx⟩

/-- To lie beyond the sort key of an item is to come after the item. -/
theorem beyond_iff_along {s : KeySchema} {x y : Item} {q : KeyValue} (hx : s.sortValue? x = some q)
    : s.beyond forward q y = true ↔ Along forward s.SortsBelow x y := by
  cases hy : s.sortValue? y with
  | none => cases forward <;> simp [KeySchema.beyond, Along, KeySchema.SortsBelow, hy]
  | some p =>
      cases forward with
      | true =>
          simp [KeySchema.beyond, Along, KeySchema.SortsBelow, hx, hy, Std.OrientedCmp.gt_iff_lt]
      | false => simp [KeySchema.beyond, Along, KeySchema.SortsBelow, hx, hy]

/-- The pages of a query serve the items that it selects. -/
theorem Sound.serves_query (ht : t.Sound) (hn : t.Numeric) (limit : Option Nat) :
    Page.Serves (t.query c forward limit) limit t.schema.keyOf
      (inOrder forward (t.matching c)) where
  first := by
    have hall : (inOrder forward (t.selected c)).filter (fun e => after forward none e.1) =
        inOrder forward (t.selected c) := List.filter_eq_self.mpr fun _ _ => rfl
    rw [query_of_startOf rfl, hall, map_inOrder]
    rfl
  next := by
    intro ys x zs hsplit
    have hread : x ∈ inOrder forward (t.matching c) := by
      rw [hsplit]
      exact List.mem_append_right _ List.mem_cons_self
    have hmem : x ∈ t.items := mem_items_of_mem_matching (mem_inOrder.mp hread)
    obtain ⟨pk, sk, hx⟩ := ht.extract_of_mem hmem
    have hsk := (KeySchema.numeric_of_extract (hn x hmem) hx).2
    have hvalue : t.schema.sortValue? x = some sk.value :=
      KeySchema.sortValue?_eq_some_iff.mpr ⟨sk, (KeySchema.extract_eq_ok_iff.mp hx).2, rfl⟩
    rw [ht.query_eq hn (by rw [KeySchema.extract_keyOf, hx]) hsk, hsplit,
      filter_after (fun e _ => beyond_iff_along hvalue)
        (Along.asymm KeySchema.SortsBelow.asymm)
        (hsplit ▸ pairwise_inOrder (ht.pairwise_matching hn))]

/-- Where the operands are numbers if they are of the number type, the condition on the entry keys
is the condition on the items' own sort keys. -/
theorem Sound.matching_eq_filter (ht : t.Sound) (hn : t.Numeric)
    (hc : ∀ s ∈ c.sort, ∀ k ∈ s.operands, k.numeric = true) :
    t.matching c =
      ((t.partition c.partition).map (·.2)).filter (t.schema.satisfies c.sort) := by
  rw [matching, selected, List.filter_map]
  refine congrArg _ (List.filter_congr ?_)
  intro e he
  obtain ⟨pk, sk, hx, -, hvalue⟩ := ht.placed_partition he
  have hkey := ht.numericKeys_partition hn c.partition e he
  have hsort := (KeySchema.extract_eq_ok_iff.mp hx).2
  cases hcs : c.sort with
  | none => rfl
  | some s =>
      have hholds := SortCondition.holds_congr (hc s hcs) hkey hvalue
      simpa [KeySchema.satisfies, hsort] using hholds

theorem Sound.query_all (ht : t.Sound) (hn : t.Numeric) :
    t.query c forward none none = .ok ⟨inOrder forward (t.matching c), none⟩ :=
  (ht.serves_query hn none).first

/-- The pages of a partition.  A query selects among the items with the partition key, which it
reads in the order of their own sort keys; a condition whose numbers are numbers is one on these
own sort keys.

From a start key, whether or not there is an item with it, a page shows the first of the selected
items that lie strictly beyond the start's sort key, and has a last key, which has all key
attributes of the last item, exactly if it is full.  The pages that follow each other from no
start key are one more than the limit goes into the number of selected items, each key being
accepted, and together they are what the query without a limit shows.  Reading backward is
reading forward, reversed. -/
theorem query_pages (t : Table) (history : List Item) (ht : t = ofPuts t.schema history)
    (h : ∀ item ∈ history, t.schema.numeric item = true) (c : KeyCondition) (forward : Bool)
    (n : Nat) (hpos : 0 < n) :
    ((SortKey.ofValue c.partition).numeric = true →
      (t.partition c.partition).map (·.2) = t.items.filter fun x =>
        t.schema.partition.value? x == some (SortKey.ofValue c.partition).value) ∧
    (∀ e ∈ t.partition c.partition, ∃ sk, t.schema.readSort e.2 = .ok sk ∧ e.1.same sk = true) ∧
    ((∀ s ∈ c.sort, ∀ k ∈ s.operands, k.numeric = true) → t.matching c =
      ((t.partition c.partition).map (·.2)).filter (t.schema.satisfies c.sort)) ∧
    (t.matching c).Pairwise t.schema.SortsBelow ∧
    (∀ key pk sk, t.schema.numeric key = true → t.schema.extract key = .ok (pk, sk) →
      ∃ page, t.query c forward (some n) (some key) = .ok page ∧
        page.items = ((inOrder forward (t.matching c)).filter
          (t.schema.beyond forward sk.value)).take n ∧
        (page.items.length = n → ∃ x, page.items.getLast? = some x ∧
          page.lastKey = some (t.schema.keyOf x)) ∧
        (page.items.length ≠ n → page.lastKey = none)) ∧
    (∀ x ∈ t.items, (∃ k, t.schema.extract (t.schema.keyOf x) = .ok k) ∧
      ∀ name, NameMap.get? (t.schema.keyOf x) name =
        if name ∈ t.schema.names then NameMap.get? x name else none) ∧
    (∃ pages, Page.Chain (t.query c forward (some n)) none pages ∧
      pages.length = (t.matching c).length / n + 1 ∧
      t.query c forward none none = .ok ⟨pages.flatMap (·.items), none⟩) ∧
    t.query c true none none = .ok ⟨t.matching c, none⟩ ∧
    t.query c false none none = .ok ⟨(t.matching c).reverse, none⟩ := by
  have hs : t.Sound := ht ▸ sound_ofPuts t.schema history
  have hn : t.Numeric := by
    rw [ht]
    exact numeric_ofPuts h
  refine ⟨fun hv => hs.partition_eq_filter hn hv, ?_, fun hc => hs.matching_eq_filter hn hc,
    hs.pairwise_matching hn, ?_, ?_, ?_, hs.query_all hn, hs.query_all hn⟩
  · intro e he
    obtain ⟨pk, sk, hx, -, hvalue⟩ := hs.placed_partition he
    exact ⟨sk, (KeySchema.extract_eq_ok_iff.mp hx).2, (SortKey.same_iff _ _).mpr hvalue⟩
  · intro key pk sk hkey hx
    have hsk := (KeySchema.numeric_of_extract hkey hx).2
    exact ⟨_, hs.query_eq hn hx hsk, rfl, Page.lastKey_cut_of_full hpos, Page.lastKey_cut_of_short⟩
  · intro x hx
    refine ⟨?_, KeySchema.get?_keyOf t.schema x⟩
    obtain ⟨pk, sk, hx⟩ := hs.extract_of_mem hx
    exact ⟨(pk, sk), by rw [KeySchema.extract_keyOf, hx]⟩
  · have hserves : Page.Serves (t.query c forward (some n)) (some n) t.schema.keyOf
        (inOrder forward (t.matching c)) := hs.serves_query hn (some n)
    obtain ⟨pages, hchain, hcount, hflat, -⟩ := hserves.exists_chain (by simpa using hpos)
    refine ⟨pages, hchain, ?_, ?_⟩
    · rw [hcount, (inOrder_perm forward _).length_eq]
      rfl
    · rw [hflat]
      exact hs.query_all hn

/-- Two readings fill a page of two, which an empty page follows. -/
theorem query_pages_reading :
    ofPuts readingSchema [reading "1" "first", reading "0.5" "second"] = ofPuts
      (ofPuts readingSchema [reading "1" "first", reading "0.5" "second"]).schema
      [reading "1" "first", reading "0.5" "second"] ∧
    (∀ item ∈ [reading "1" "first", reading "0.5" "second"],
      (ofPuts readingSchema [reading "1" "first", reading "0.5" "second"]).schema.numeric item =
        true) ∧
    ∃ pages, Page.Chain ((ofPuts readingSchema [reading "1" "first", reading "0.5" "second"]).query
      ⟨.string "d", none⟩ true (some 2)) none pages ∧ pages.length = 2 := by
  have ht : ofPuts readingSchema [reading "1" "first", reading "0.5" "second"] = ofPuts
      (ofPuts readingSchema [reading "1" "first", reading "0.5" "second"]).schema
      [reading "1" "first", reading "0.5" "second"] := by rw [schema_ofPuts]
  have h : ∀ item ∈ [reading "1" "first", reading "0.5" "second"],
      (ofPuts readingSchema [reading "1" "first", reading "0.5" "second"]).schema.numeric item =
        true := by decide +kernel
  obtain ⟨-, -, -, -, -, -, ⟨pages, hchain, hlength, -⟩, -⟩ :=
    query_pages _ _ ht h ⟨.string "d", none⟩ true 2 (by decide)
  refine ⟨ht, h, pages, hchain, hlength.trans ?_⟩
  decide +kernel

end Table

end ItemStore
