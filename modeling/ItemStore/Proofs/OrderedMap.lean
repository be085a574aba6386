import ItemStore.NameMap
import Mathlib.Data.List.Induction

/-!
# Ordered maps as finite maps

`OrderedMap` takes no law of the comparison for granted, and keeps a key as it was first written.
Here the keys stand for something, by a function `f`, and the comparison of the keys at hand is
the comparison of what they stand for, `Agrees`.  Then an ordered map is a finite map on what its
keys stand for, however the keys are written:

* a lookup after an insertion finds the new value under the inserted key and what was there under
  every other one (`find?_insert`);
* insertion keeps the order (`ascending_insert`), and in an ordered map a lookup finds exactly what
  the map holds (`find?_eq_some_iff`).
-/

namespace ItemStore.OrderedMap

variable {κ ι α : Type} {c : κ → κ → Ordering} {f : κ → ι} {o : ι → ι → Ordering}

/-- A key is compared with the keys of a map as what they stand for. -/
def Agrees (c : κ → κ → Ordering) (f : κ → ι) (o : ι → ι → Ordering) (k : κ)
    (m : List (κ × α)) : Prop :=
  ∀ e ∈ m, c k e.1 = o (f k) (f e.1)

/-- The entries are in strictly increasing order of what their keys stand for. -/
def Ascending (f : κ → ι) (o : ι → ι → Ordering) (m : List (κ × α)) : Prop :=
  m.Pairwise fun a b => o (f a.1) (f b.1) = .lt

theorem Agrees.head {k : κ} {e : κ × α} {m : List (κ × α)} (h : Agrees c f o k (e :: m)) :
    c k e.1 = o (f k) (f e.1) :=
  h e List.mem_cons_self

theorem Agrees.tail {k : κ} {e : κ × α} {m : List (κ × α)} (h : Agrees c f o k (e :: m)) :
    Agrees c f o k m :=
  fun e' he => h e' (List.mem_cons_of_mem _ he)

/-! ## The entries after an insertion -/

/-- An insertion keeps every key as it is written, and adds at most its own. -/
theorem key_mem_insert {k : κ} {v : α} {m : List (κ × α)} {k' : κ}
    (h : k' ∈ (insert c k v m).map (·.1)) : k' = k ∨ k' ∈ m.map (·.1) := by
  induction m with
  | nil =>
      simp only [insert, List.map_cons, List.map_nil, List.mem_singleton] at h
      exact Or.inl h
  | cons e rest ih =>
      simp only [insert] at h
      split at h <;> simp only [List.map_cons, List.mem_cons] at h ⊢
      · exact h
      · exact Or.inr h
      · rcases h with h | h
        · exact Or.inr (Or.inl h)
        · exact (ih h).imp_right Or.inr

theorem key_mem_insert_of_mem {k : κ} {v : α} {m : List (κ × α)} {k' : κ}
    (h : k' ∈ m.map (·.1)) : k' ∈ (insert c k v m).map (·.1) := by
  induction m with
  | nil => cases h
  | cons e rest ih =>
      simp only [insert]
      split <;> simp only [List.map_cons, List.mem_cons] at h ⊢
      · exact Or.inr h
      · exact h
      · exact h.imp_right ih

/-- The entries after an insertion are the new value, under the inserted key or under one that
compares equal, and entries that were there. -/
theorem mem_insert {k : κ} {v : α} {m : List (κ × α)} {e : κ × α}
    (h : e ∈ insert c k v m) :
    (e.2 = v ∧ (e.1 = k ∨ c k e.1 = .eq)) ∨ e ∈ m := by
  induction m with
  | nil =>
      simp only [insert, List.mem_singleton] at h
      exact Or.inl ⟨h ▸ rfl, Or.inl (h ▸ rfl)⟩
  | cons a rest ih =>
      simp only [insert] at h
      split at h
      next =>
          rcases List.mem_cons.mp h with rfl | h
          · exact Or.inl ⟨rfl, Or.inl rfl⟩
          · exact Or.inr h
      next heq =>
          rcases List.mem_cons.mp h with rfl | h
          · exact Or.inl ⟨rfl, Or.inr heq⟩
          · exact Or.inr (List.mem_cons_of_mem _ h)
      next =>
          rcases List.mem_cons.mp h with rfl | h
          · exact Or.inr List.mem_cons_self
          · exact (ih h).imp_right (List.mem_cons_of_mem _)

/-- The inserted value stands under the inserted key, or under one that compares equal. -/
theorem exists_mem_insert (k : κ) (v : α) (m : List (κ × α)) :
    ∃ k', (k', v) ∈ insert c k v m ∧ (k' = k ∨ c k k' = .eq) := by
  induction m with
  | nil => exact ⟨k, List.mem_singleton.mpr rfl, Or.inl rfl⟩
  | cons e rest ih =>
      cases h : c k e.1 with
      | lt =>
          simp only [insert, h]
          exact ⟨k, List.mem_cons_self, Or.inl rfl⟩
      | eq =>
          simp only [insert, h]
          exact ⟨e.1, List.mem_cons_self, Or.inr h⟩
      | gt =>
          simp only [insert, h]
          obtain ⟨k', hmem, hk⟩ := ih
          exact ⟨k', List.mem_cons_of_mem _ hmem, hk⟩

/-- An insertion makes the map longer unless it replaces a value. -/
theorem length_insert (k : κ) (v : α) (m : List (κ × α)) :
    (insert c k v m).length =
      if (find? c k m).isSome then m.length else m.length + 1 := by
  induction m with
  | nil => rfl
  | cons e rest ih =>
      cases h : c k e.1 with
      | lt => simp [insert, find?, h]
      | eq => simp [insert, find?, h]
      | gt =>
          simp only [insert, find?, h, List.length_cons, ih]
          split <;> rfl

/-- A key that is greater than all others is put at the end. -/
theorem insert_of_gt {k : κ} {v : α} {m : List (κ × α)} (h : ∀ e ∈ m, c k e.1 = .gt) :
    insert c k v m = m ++ [(k, v)] := by
  induction m with
  | nil => rfl
  | cons e rest ih =>
      obtain ⟨k', v'⟩ := e
      have hk : c k k' = .gt := h (k', v') List.mem_cons_self
      rw [insert, hk, List.cons_append, ih fun e he => h e (List.mem_cons_of_mem _ he)]

/-- Changing the values before an insertion or after it gives the same map. -/
theorem map_insert {β : Type} (g : α → β) (k : κ) (v : α) (m : List (κ × α)) :
    (insert c k v m).map (fun e => (e.1, g e.2)) =
      insert c k (g v) (m.map fun e => (e.1, g e.2)) := by
  induction m with
  | nil => rfl
  | cons e rest ih =>
      simp only [insert, List.map_cons]
      split
      next => rfl
      next => rfl
      next => rw [List.map_cons, ih]

/-! ## Lookups -/

/-- Putting the value that is there changes nothing. -/
theorem insert_of_find? {k : κ} {v : α} {m : List (κ × α)} (h : find? c k m = some v) :
    insert c k v m = m := by
  induction m with
  | nil => cases h
  | cons e rest ih =>
      obtain ⟨k', v'⟩ := e
      simp only [find?] at h
      simp only [insert]
      cases hk : c k k' with
      | lt =>
          rw [hk] at h
          cases h
      | eq =>
          rw [hk] at h
          cases h
          rfl
      | gt =>
          rw [hk] at h
          rw [ih h]

theorem exists_mem_of_find? {k : κ} {v : α} {m : List (κ × α)} (h : find? c k m = some v) :
    ∃ k', (k', v) ∈ m ∧ c k k' = .eq := by
  induction m with
  | nil => cases h
  | cons e rest ih =>
      simp only [find?] at h
      split at h
      next => cases h
      next heq => cases h; exact ⟨e.1, List.mem_cons_self, heq⟩
      next =>
          obtain ⟨k', hmem, hk⟩ := ih h
          exact ⟨k', List.mem_cons_of_mem _ hmem, hk⟩

section Lawful

variable [Std.TransCmp o]

/-- An insertion keeps the order. -/
theorem ascending_insert {k : κ} {v : α} {m : List (κ × α)} (hk : Agrees c f o k m)
    (hm : Ascending f o m) : Ascending f o (insert c k v m) := by
  induction m with
  | nil => exact List.pairwise_singleton _ _
  | cons e rest ih =>
      obtain ⟨hhead, htail⟩ := List.pairwise_cons.mp hm
      cases hke : o (f k) (f e.1) with
      | lt =>
          simp only [insert, hk.head, hke]
          refine List.pairwise_cons.mpr ⟨?_, hm⟩
          intro e' he'
          rcases List.mem_cons.mp he' with rfl | he'
          · exact hke
          · exact Std.TransCmp.lt_trans hke (hhead e' he')
      | eq =>
          simp only [insert, hk.head, hke]
          exact List.pairwise_cons.mpr ⟨hhead, htail⟩
      | gt =>
          simp only [insert, hk.head, hke]
          refine List.pairwise_cons.mpr ⟨?_, ih hk.tail htail⟩
          intro e' he'
          rcases key_mem_insert (List.mem_map_of_mem he') with hk' | hk'
          · show o (f e.1) (f e'.1) = .lt
            rw [hk']
            exact Std.OrientedCmp.gt_iff_lt.mp hke
          · obtain ⟨e'', he'', hkey⟩ := List.mem_map.mp hk'
            show o (f e.1) (f e'.1) = .lt
            rw [← hkey]
            exact hhead e'' he''

variable [Std.LawfulEqCmp o]

omit [Std.TransCmp o] in
theorem eq_iff_of_ord {x y : ι} : o x y = .eq ↔ x = y := Std.LawfulEqCmp.compare_eq_iff_eq

omit [Std.TransCmp o] in
theorem ne_of_ord_lt {x y : ι} (h : o x y = .lt) : x ≠ y := by
  rintro rfl
  rw [(Std.ReflCmp.compare_self : o x x = .eq)] at h
  cases h

omit [Std.TransCmp o] in
theorem ne_of_ord_gt {x y : ι} (h : o x y = .gt) : x ≠ y := by
  rintro rfl
  rw [(Std.ReflCmp.compare_self : o x x = .eq)] at h
  cases h

/-- An insertion changes what is found under the inserted key only. -/
theorem find?_insert [DecidableEq ι] {k k' : κ} {v : α} {m : List (κ × α)}
    (hk : Agrees c f o k m) (hk' : Agrees c f o k' m)
    (hkk : c k' k = o (f k') (f k)) :
    find? c k' (insert c k v m) = if f k' = f k then some v else find? c k' m := by
  induction m with
  | nil =>
      cases h : o (f k') (f k) with
      | lt => simp only [insert, find?, hkk, h, if_neg (ne_of_ord_lt h)]
      | eq => simp only [insert, find?, hkk, h, if_pos (eq_iff_of_ord.mp h)]
      | gt => simp only [insert, find?, hkk, h, if_neg (ne_of_ord_gt h)]
  | cons e rest ih =>
      have ih := ih hk.tail hk'.tail
      cases hke : o (f k) (f e.1) with
      | lt =>
          simp only [insert, hk.head, hke]
          cases h : o (f k') (f k) with
          | lt =>
              have hlt : o (f k') (f e.1) = .lt := Std.TransCmp.lt_trans h hke
              simp only [find?, hkk, h, hk'.head, hlt, if_neg (ne_of_ord_lt h)]
          | eq => simp only [find?, hkk, h, if_pos (eq_iff_of_ord.mp h)]
          | gt => simp only [find?, hkk, h, if_neg (ne_of_ord_gt h)]
      | eq =>
          have hfe : f k = f e.1 := eq_iff_of_ord.mp hke
          simp only [insert, hk.head, hke]
          cases h : o (f k') (f e.1) with
          | lt => simp only [find?, hk'.head, h, hfe, if_neg (ne_of_ord_lt h)]
          | eq => simp only [find?, hk'.head, h, hfe, if_pos (eq_iff_of_ord.mp h)]
          | gt => simp only [find?, hk'.head, h, hfe, if_neg (ne_of_ord_gt h)]
      | gt =>
          simp only [insert, hk.head, hke]
          cases h : o (f k') (f e.1) with
          | lt =>
              have hlt : o (f k') (f k) = .lt :=
                Std.TransCmp.lt_trans h (Std.OrientedCmp.gt_iff_lt.mp hke)
              simp only [find?, hk'.head, h, if_neg (ne_of_ord_lt hlt)]
          | eq =>
              have hne : f k' ≠ f k := fun he =>
                ne_of_ord_gt hke (he.symm.trans (eq_iff_of_ord.mp h))
              simp only [find?, hk'.head, h, if_neg hne]
          | gt => simp only [find?, hk'.head, h, ih]

/-- In an ordered map a lookup finds exactly what the map holds. -/
theorem find?_eq_some_iff {k : κ} {v : α} {m : List (κ × α)} (hk : Agrees c f o k m)
    (hm : Ascending f o m) : find? c k m = some v ↔ ∃ k', (k', v) ∈ m ∧ f k' = f k := by
  constructor
  · intro h
    obtain ⟨k', hmem, heq⟩ := exists_mem_of_find? h
    rw [hk _ hmem, eq_iff_of_ord] at heq
    exact ⟨k', hmem, heq.symm⟩
  · rintro ⟨k', hmem, heq⟩
    induction m with
    | nil => cases hmem
    | cons e rest ih =>
        obtain ⟨hhead, htail⟩ := List.pairwise_cons.mp hm
        rcases List.mem_cons.mp hmem with rfl | hmem
        · simp only [find?, hk.head, eq_iff_of_ord.mpr heq.symm]
        · have hgt : o (f k) (f e.1) = .gt := by
            rw [← heq]
            exact Std.OrientedCmp.gt_iff_lt.mpr (hhead _ hmem)
          simp only [find?, hk.head, hgt]
          exact ih hk.tail htail hmem

end Lawful

end ItemStore.OrderedMap

/-! ## Maps from names -/

namespace ItemStore.NameMap

variable {α : Type}

theorem get?_set (m : NameMap α) (name other : String) (v : α) :
    get? (set m name v) other = if other = name then some v else get? m other :=
  OrderedMap.find?_insert (f := id) (o := compare) (fun _ _ => rfl) (fun _ _ => rfl) rfl

/-- Changing the values of a map leaves them under their names. -/
theorem get?_map {β : Type} (f : α → β) (m : NameMap α) (name : String) :
    get? (m.map fun e => (e.1, f e.2)) name = (get? m name).map f := by
  induction m with
  | nil => rfl
  | cons e rest ih =>
      obtain ⟨name', v⟩ := e
      simp only [get?, List.map_cons, OrderedMap.find?] at ih ⊢
      cases compare name name' with
      | lt => rfl
      | eq => rfl
      | gt => exact ih

/-- Entries that all give a name the value that another map gives it. -/
theorem get?_foldl_set {m n : NameMap α} {es : List (String × α)} {name : String}
    (hes : ∀ e ∈ es, get? n e.1 = some e.2) :
    get? (es.foldl (fun m e => set m e.1 e.2) m) name =
      if name ∈ es.map (·.1) then get? n name else get? m name := by
  induction es generalizing m with
  | nil => simp
  | cons e es ih =>
      have he := hes e List.mem_cons_self
      rw [List.foldl_cons, ih fun e' he' => hes e' (List.mem_cons_of_mem _ he'), get?_set]
      by_cases hmem : name ∈ es.map (·.1)
      · rw [if_pos hmem, List.map_cons, if_pos (List.mem_cons_of_mem _ hmem)]
      · rw [if_neg hmem, List.map_cons]
        by_cases hname : name = e.1
        · rw [if_pos hname, hname, if_pos List.mem_cons_self, he]
        · rw [if_neg hname, if_neg fun h => (List.mem_cons.mp h).elim hname hmem]

theorem mem_set {m : NameMap α} {name : String} {v : α} {e : String × α}
    (h : e ∈ set m name v) : e = (name, v) ∨ e ∈ m := by
  rcases OrderedMap.mem_insert h with ⟨hv, hname | hname⟩ | h
  · exact Or.inl (Prod.ext hname hv)
  · exact Or.inl (Prod.ext (Std.LawfulEqCmp.eq_of_compare hname).symm hv)
  · exact Or.inr h

/-- The entries that a restriction is made of. -/
theorem mem_filterMap_get? {m : NameMap α} {names : List String} {e : String × α} :
    e ∈ (names.filterMap fun name => (get? m name).map fun v => (name, v)) ↔
      e.1 ∈ names ∧ get? m e.1 = some e.2 := by
  simp only [List.mem_filterMap, Option.map_eq_some_iff]
  constructor
  · rintro ⟨name, hname, v, hv, rfl⟩
    exact ⟨hname, hv⟩
  · rintro ⟨hname, hv⟩
    exact ⟨e.1, hname, e.2, hv, rfl⟩

/-- A restriction gives its names the values that the map gives them, and nothing else. -/
theorem get?_restrict (m : NameMap α) (names : List String) (name : String) :
    get? (restrict m names) name = if name ∈ names then get? m name else none := by
  have hes : ∀ e ∈ names.filterMap fun name => (get? m name).map fun v => (name, v),
      e.1 ∈ names ∧ get? m e.1 = some e.2 := fun _ he => mem_filterMap_get?.mp he
  rw [restrict, ofEntries, get?_foldl_set fun e he => (hes e he).2]
  by_cases hname : name ∈ names
  · rw [if_pos hname]
    cases hv : get? m name with
    | none => exact ite_self _
    | some v =>
        have hmem := mem_filterMap_get?.mpr (⟨hname, hv⟩ : (name, v).1 ∈ names ∧ _)
        rw [if_pos (List.mem_map_of_mem hmem)]
  · rw [if_neg hname, if_neg]
    · rfl
    · intro h
      obtain ⟨e, he, rfl⟩ := List.mem_map.mp h
      exact hname (hes e he).1

theorem mem_of_get? {m : NameMap α} {name : String} {v : α} (h : get? m name = some v) :
    (name, v) ∈ m := by
  obtain ⟨name', hmem, hname⟩ := OrderedMap.exists_mem_of_find? h
  rw [Std.LawfulEqCmp.eq_of_compare hname]
  exact hmem

/-! ### Unions -/

/-- The names are in strictly increasing order. -/
def Ascending (m : NameMap α) : Prop := OrderedMap.Ascending id compare m

theorem ascending_nil : Ascending ([] : NameMap α) := List.Pairwise.nil

/-- The names alone decide the order. -/
theorem Ascending.of_names {β : Type} {m : NameMap α} {n : NameMap β} (hm : Ascending m)
    (h : m.map (·.1) = n.map (·.1)) : Ascending n := by
  have hnames : (n.map (·.1)).Pairwise fun a b => compare a b = .lt :=
    h ▸ List.pairwise_map.mpr hm
  exact List.pairwise_map.mp hnames

theorem Ascending.set {m : NameMap α} (hm : Ascending m) (name : String) (v : α) :
    Ascending (set m name v) :=
  OrderedMap.ascending_insert (fun _ _ => rfl) hm

theorem Ascending.foldl_set {m : NameMap α} (hm : Ascending m) (es : List (String × α)) :
    Ascending (es.foldl (fun m e => NameMap.set m e.1 e.2) m) := by
  induction es generalizing m with
  | nil => exact hm
  | cons e es ih => exact ih (hm.set e.1 e.2)

theorem ascending_ofEntries (es : List (String × α)) : Ascending (ofEntries es) :=
  ascending_nil.foldl_set es

theorem ofEntries_concat (es : List (String × α)) (e : String × α) :
    ofEntries (es ++ [e]) = NameMap.set (ofEntries es) e.1 e.2 := by
  simp [ofEntries]

/-- The map of the entries of a map is the map. -/
theorem Ascending.ofEntries_self {m : NameMap α} (hm : Ascending m) : ofEntries m = m := by
  induction m using List.reverseRecOn with
  | nil => rfl
  | append_singleton m e ih =>
      obtain ⟨hinit, -, hlast⟩ := List.pairwise_append.mp hm
      have hgt : ∀ e' ∈ m, compare e.1 e'.1 = .gt := fun e' he' =>
        Std.OrientedCmp.gt_iff_lt.mpr (hlast e' he' e (List.mem_singleton.mpr rfl))
      rw [ofEntries_concat, ih hinit]
      exact OrderedMap.insert_of_gt hgt

/-- Changing the values of some entries changes those of their map. -/
theorem ofEntries_map {β : Type} (g : α → β) (es : List (String × α)) :
    ofEntries (es.map fun e => (e.1, g e.2)) = (ofEntries es).map fun e => (e.1, g e.2) := by
  induction es using List.reverseRecOn with
  | nil => rfl
  | append_singleton es e ih =>
      rw [ofEntries_concat, NameMap.set, OrderedMap.map_insert, ← ih, List.map_append]
      exact ofEntries_concat _ (e.1, g e.2)

theorem mem_ofEntries {es : List (String × α)} {e : String × α} (h : e ∈ ofEntries es) :
    e ∈ es := by
  induction es using List.reverseRecOn with
  | nil => cases h
  | append_singleton es e' ih =>
      rw [ofEntries_concat] at h
      rcases mem_set h with rfl | h
      · exact List.mem_append_right _ List.mem_cons_self
      · exact List.mem_append_left _ (ih h)

theorem Ascending.get?_of_mem {m : NameMap α} (hm : Ascending m) {e : String × α} (he : e ∈ m) :
    get? m e.1 = some e.2 :=
  (OrderedMap.find?_eq_some_iff (fun _ _ => rfl) hm).mpr ⟨e.1, he, rfl⟩

/-- A union has what the second map has and, under other names, what the first map has. -/
theorem Ascending.get?_union {other : NameMap α} (hother : Ascending other) (m : NameMap α)
    (name : String) : get? (union m other) name = (get? other name).or (get? m name) := by
  rw [union, get?_foldl_set fun e he => hother.get?_of_mem he]
  cases hname : get? other name with
  | none =>
      have hmem : name ∉ other.map (·.1) := by
        intro h
        obtain ⟨e, he, rfl⟩ := List.mem_map.mp h
        rw [hother.get?_of_mem he] at hname
        cases hname
      rw [if_neg hmem, Option.none_or]
  | some v => rw [if_pos (List.mem_map_of_mem (mem_of_get? hname)), Option.some_or]

/-- A map together with itself is the map. -/
theorem Ascending.union_self {m : NameMap α} (hm : Ascending m) : union m m = m := by
  have hfold : ∀ es : List (String × α), (∀ e ∈ es, get? m e.1 = some e.2) →
      es.foldl (fun m e => NameMap.set m e.1 e.2) m = m := by
    intro es hes
    induction es with
    | nil => rfl
    | cons e es ih =>
        have hset : NameMap.set m e.1 e.2 = m :=
          OrderedMap.insert_of_find? (hes e List.mem_cons_self)
        rw [List.foldl_cons, hset]
        exact ih fun e' he' => hes e' (List.mem_cons_of_mem _ he')
  exact hfold m fun e he => hm.get?_of_mem he

/-- The union of two restrictions of one map is its restriction to all their names. -/
theorem get?_union_restrict (m : NameMap α) (names others : List String) (name : String) :
    get? (union (restrict m names) (restrict m others)) name =
      if name ∈ names ∨ name ∈ others then get? m name else none := by
  have hothers : Ascending (restrict m others) := ascending_nil.foldl_set _
  rw [hothers.get?_union, get?_restrict, get?_restrict]
  by_cases hname : name ∈ names <;> by_cases hother : name ∈ others <;>
    simp [hname, hother]

end ItemStore.NameMap
