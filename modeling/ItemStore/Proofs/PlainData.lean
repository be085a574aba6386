import ItemStore.Proofs.DoubleText
import ItemStore.Proofs.TaggedValue
import ItemStore.Value.Codec

/-!
# Plain data survives storage

What an object is stored as is read back as the object (`Value.toPlain_ofPlain`): a number is
written so that its text tells an integer from a double.  Reading forgets how a number was spelled
and what a set was, but what it yields can be stored again without further loss
(`Value.exact_of_toPlain`).  It fails exactly on a number, at any depth, that no 64-bit integer
and no finite double stands for (`Value.exists_error_iff_holdsNumber`).
-/

namespace ItemStore

/-! ## Numbers -/

namespace Json.Number

/-- An integer of a signed or an unsigned 64-bit word, or a finite double. -/
def Storable : Number → Prop
  | integer i => -2 ^ 63 ≤ i ∧ i < 2 ^ 64
  | double x => x.isFinite = true ∧ x.Canonical

/-- The text of an integer of a signed or an unsigned 64-bit word, or of a finite double. -/
def Readable (text : String) : Prop :=
  ((Text.IntRange.signed 64).read text).isSome = true ∨
    ((Text.IntRange.unsigned 64).read text).isSome = true ∨
      ∃ x, Binary64.ofText text = some x ∧ x.isFinite = true

theorem ofStored_integer {i : Int} (h : Storable (.integer i)) :
    ofStored (toString i) = .ok (.integer i) := by
  obtain ⟨hlow, hhigh⟩ := h
  rw [ofStored, Text.IntRange.read_toString, Text.IntRange.read_toString]
  by_cases hsigned : i < 2 ^ 63
  · rw [Text.IntRange.within_eq_some ((Text.IntRange.holds_signed_iff i).mpr ⟨hlow, hsigned⟩)]
  · rw [Text.IntRange.within_eq_none fun h => hsigned ((Text.IntRange.holds_signed_iff i).mp h).2,
      Text.IntRange.within_eq_some
        ((Text.IntRange.holds_unsigned_iff i).mpr ⟨by omega, hhigh⟩)]

/-- A double is not mistaken for an integer, as its text has a point or a power of ten. -/
theorem ofStored_double {x : Binary64} (h : Storable (.double x)) :
    ofStored (x.text Binary64.exchange) = .ok (.double x) := by
  obtain ⟨hfinite, hcanonical⟩ := h
  have hnone : ∀ r : Text.IntRange, r.read (x.text Binary64.exchange) = none := by
    intro r
    have hmark := Binary64.mark_mem_text (n := Binary64.exchange) rfl hfinite
    rcases hmark with hmark | hmark
    · exact Text.IntRange.read_eq_none hmark (by decide) (by decide) (by decide)
    · exact Text.IntRange.read_eq_none hmark (by decide) (by decide) (by decide)
  rw [ofStored, hnone, hnone, Binary64.ofText_text _ hfinite hcanonical]
  exact if_pos hfinite

/-- A number is read back from its text. -/
theorem ofStored_text : ∀ {n : Number}, n.Storable → ofStored n.text = .ok n
  | .integer _, h => ofStored_integer h
  | .double _, h => ofStored_double h

theorem storable_of_ofStored {t : String} {n : Number} (h : ofStored t = .ok n) : n.Storable := by
  rw [ofStored] at h
  split at h
  next i hread =>
      cases h
      have hi := (Text.IntRange.holds_signed_iff i).mp (Text.IntRange.holds_of_read hread)
      exact ⟨hi.1, by omega⟩
  next =>
      split at h
      next i hread =>
          cases h
          have hi := (Text.IntRange.holds_unsigned_iff i).mp (Text.IntRange.holds_of_read hread)
          exact ⟨by omega, hi.2⟩
      next =>
          split at h
          next x hread =>
              split at h
              next hfinite =>
                  cases h
                  exact ⟨hfinite, Binary64.canonical_of_ofText hread⟩
              next => cases h
          next => cases h

theorem ofStored_eq_error_iff {t : String} {e : CodecError} :
    ofStored t = .error e ↔ ¬ Readable t ∧ e = .invalidNumber t := by
  cases hsigned : (Text.IntRange.signed 64).read t with
  | some i => simp [ofStored, Readable, hsigned]
  | none =>
      cases hunsigned : (Text.IntRange.unsigned 64).read t with
      | some i => simp [ofStored, Readable, hsigned, hunsigned]
      | none =>
          cases hdouble : Binary64.ofText t with
          | none => simp [ofStored, Readable, hsigned, hunsigned, hdouble, @eq_comm _ e]
          | some x =>
              by_cases hfinite : x.isFinite = true
              · simp [ofStored, Readable, hsigned, hunsigned, hdouble, hfinite]
              · simp [ofStored, Readable, hsigned, hunsigned, hdouble, hfinite, @eq_comm _ e]

end Json.Number

/-! ## Data of any depth -/

/-- Every number within the data can be stored. -/
inductive Json.Storable : Json → Prop
  | null : Storable .null
  | bool (b : Bool) : Storable (.bool b)
  | number {n : Json.Number} : n.Storable → Storable (.number n)
  | string (s : String) : Storable (.string s)
  | array {xs : List Json} : (∀ x ∈ xs, Storable x) → Storable (.array xs)
  | object {ms : List (String × Json)} : (∀ m ∈ ms, Storable m.2) → Storable (.object ms)

namespace Value

variable {v : Value} {xs : List Value} {es : List (String × Value)} {e : CodecError}

theorem ofPlainElements_eq_map (xs : List Json) : ofPlainElements xs = xs.map ofPlain := by
  induction xs with
  | nil => rfl
  | cons x xs ih => rw [ofPlainElements, ih, List.map_cons]

theorem ofPlainMembers_eq_map (ms : List (String × Json)) :
    ofPlainMembers ms = ms.map fun m => (m.1, ofPlain m.2) := by
  induction ms with
  | nil => rfl
  | cons m ms ih => rw [ofPlainMembers, ih, List.map_cons]

theorem toPlainElements_eq_ok_iff {js : List Json} :
    toPlainElements xs = .ok js ↔ xs.map toPlain = js.map .ok := by
  induction xs generalizing js with
  | nil => cases js <;> simp [toPlainElements]
  | cons x xs ih =>
      simp only [toPlainElements, bind_eq_ok_iff, ih]
      cases js <;> simp

theorem toPlainEntries_eq_ok_iff {ms : List (String × Json)} :
    toPlainEntries es = .ok ms ↔
      (es.map fun e => (e.1, toPlain e.2)) = ms.map fun m => (m.1, .ok m.2) := by
  induction es generalizing ms with
  | nil => cases ms <;> simp [toPlainEntries]
  | cons e es ih =>
      simp only [toPlainEntries, bind_eq_ok_iff, ih]
      cases ms with
      | nil => simp
      | cons m ms => simp [Prod.ext_iff, and_assoc, and_left_comm]

/-- The values of a map are read as the elements of a list are. -/
theorem toPlainEntries_eq (es : List (String × Value)) :
    toPlainEntries es =
      (toPlainElements (es.map (·.2))).map fun js => (es.map (·.1)).zip js := by
  induction es with
  | nil => rfl
  | cons e es ih =>
      simp only [toPlainEntries, ih, List.map_cons, toPlainElements]
      cases e.2.toPlain with
      | error _ => rfl
      | ok _ => cases toPlainElements (es.map (·.2)) <;> rfl

/-- A set of numbers is read as the list of them. -/
theorem toPlain_numberSet (ts : List String) :
    (numberSet ts).toPlain = (list (ts.map number)).toPlain := by
  have hall : Json.Number.ofStoredAll ts = toPlainElements (ts.map number) := by
    induction ts with
    | nil => rfl
    | cons t ts ih =>
        rw [Json.Number.ofStoredAll, ih, List.map_cons, toPlainElements, toPlain]
        cases Json.Number.ofStored t <;> rfl
  rw [toPlain, hall, toPlain]

/-! ## Reading what was stored -/

/-- What data is stored as is read back as the data, with each object as the map of its members. -/
theorem toPlain_ofPlain {j : Json} (h : j.Storable) : (ofPlain j).toPlain = .ok j.sorted := by
  induction h with
  | null | bool _ | string _ => rfl
  | number hn =>
      rw [ofPlain, toPlain, Json.Number.ofStored_text hn]
      rfl
  | array _ ih =>
      refine map_eq_ok_iff.mpr ⟨_, toPlainElements_eq_ok_iff.mpr ?_, rfl⟩
      rw [ofPlainElements_eq_map, Json.sortedElements_eq_map, List.map_map, List.map_map]
      exact List.map_congr_left ih
  | object _ ih =>
      refine map_eq_ok_iff.mpr ⟨_, toPlainEntries_eq_ok_iff.mpr ?_, rfl⟩
      rw [ofPlainMembers_eq_map, Json.sortedMembers_eq_map, NameMap.ofEntries_map,
        NameMap.ofEntries_map, List.map_map, List.map_map]
      exact List.map_congr_left fun m hm => Prod.ext rfl (ih m (NameMap.mem_ofEntries hm))

end Value

/-! ## Storing what was read -/

/-- Data that can be stored and whose objects are maps, with their members in the order of the
names. -/
structure Json.Exact (j : Json) : Prop where
  storable : j.Storable
  sorted : j.sorted = j

namespace Json.Exact

theorem array {xs : List Json} (h : ∀ x ∈ xs, x.Exact) : (Json.array xs).Exact := by
  refine ⟨.array fun x hx => (h x hx).storable, ?_⟩
  rw [Json.sorted, sortedElements_eq_map, List.map_congr_left fun x hx => (h x hx).sorted,
    List.map_id']

theorem object {ms : List (String × Json)} (hms : NameMap.Ascending ms)
    (h : ∀ m ∈ ms, m.2.Exact) : (Json.object ms).Exact := by
  have hsorted : (ms.map fun m => (m.1, m.2.sorted)) = ms := by
    conv_rhs => rw [← List.map_id' ms]
    exact List.map_congr_left fun m hm => Prod.ext rfl (h m hm).sorted
  refine ⟨.object fun m hm => (h m hm).storable, ?_⟩
  rw [Json.sorted, sortedMembers_eq_map, hsorted, hms.ofEntries_self]

theorem number {n : Number} (h : n.Storable) : (Json.number n).Exact := ⟨.number h, rfl⟩

theorem strings (ss : List String) : (Json.array (ss.map .string)).Exact := by
  refine array fun x hx => ?_
  obtain ⟨s, -, rfl⟩ := List.mem_map.mp hx
  exact ⟨.string s, rfl⟩

end Json.Exact

namespace Value

variable {v : Value} {xs : List Value} {es : List (String × Value)} {e : CodecError} {t : String}

/-- Each part of what is read from a list is read from an element. -/
theorem exists_mem_of_toPlainElements {js : List Json} {j : Json} (h : toPlainElements xs = .ok js)
    (hj : j ∈ js) : ∃ x ∈ xs, x.toPlain = .ok j := by
  have hmem : Except.ok j ∈ xs.map toPlain :=
    toPlainElements_eq_ok_iff.mp h ▸ List.mem_map_of_mem hj
  exact List.mem_map.mp hmem

theorem exact_of_number {j : Json} (h : (number t).toPlain = .ok j) : j.Exact := by
  obtain ⟨n, hn, rfl⟩ := map_eq_ok_iff.mp h
  exact .number (Json.Number.storable_of_ofStored hn)

theorem exact_of_flat {j : Json} (hlist : v.kind ≠ .list) (hmap : v.kind ≠ .map)
    (h : v.toPlain = .ok j) : j.Exact := by
  cases v with
  | string s =>
      cases h
      exact ⟨.string s, rfl⟩
  | number t => exact exact_of_number h
  | binary b =>
      cases h
      exact ⟨.string _, rfl⟩
  | stringSet ss =>
      cases h
      exact .strings ss
  | numberSet ts =>
      rw [toPlain_numberSet] at h
      obtain ⟨js, hjs, rfl⟩ := map_eq_ok_iff.mp h
      refine .array fun j hj => ?_
      obtain ⟨x, hx, hplain⟩ := exists_mem_of_toPlainElements hjs hj
      obtain ⟨t, -, rfl⟩ := List.mem_map.mp hx
      exact exact_of_number hplain
  | binarySet bs =>
      cases h
      have hstrings : (bs.map fun b => Json.string (Base64.encode b)) =
          (bs.map Base64.encode).map .string := by simp
      rw [hstrings]
      exact .strings _
  | bool b =>
      cases h
      exact ⟨.bool b, rfl⟩
  | null _ =>
      cases h
      exact ⟨.null, rfl⟩
  | list _ => exact absurd rfl hlist
  | map _ => exact absurd rfl hmap

/-- What is read can be stored as it is. -/
theorem exact_of_toPlain {j : Json} (hv : v.WellFormed) (h : v.toPlain = .ok j) : j.Exact := by
  induction hv generalizing j with
  | flat hlist hmap => exact exact_of_flat hlist hmap h
  | list _ ih =>
      obtain ⟨js, hjs, rfl⟩ := map_eq_ok_iff.mp h
      refine .array fun j hj => ?_
      obtain ⟨x, hx, hplain⟩ := exists_mem_of_toPlainElements hjs hj
      exact ih x hx hplain
  | @map es hes _ ih =>
      obtain ⟨ms, hms, rfl⟩ := map_eq_ok_iff.mp h
      have hparts := toPlainEntries_eq_ok_iff.mp hms
      refine .object (hes.of_names ?_) fun m hm => ?_
      · simpa [Function.comp_def] using congrArg (List.map (·.1)) hparts
      · have hmem : (m.1, Except.ok m.2) ∈ es.map fun e => (e.1, toPlain e.2) :=
          hparts ▸ List.mem_map.mpr ⟨m, hm, rfl⟩
        obtain ⟨e, he, hplain⟩ := List.mem_map.mp hmem
        exact ih e he (congrArg Prod.snd hplain)

/-! ## Numbers that cannot be read -/

/-- The text of a number, or of a member of a set of numbers, at any depth of the value. -/
inductive HoldsNumber (t : String) : Value → Prop
  | number : HoldsNumber t (.number t)
  | member {ts : List String} : t ∈ ts → HoldsNumber t (.numberSet ts)
  | element {xs : List Value} {x : Value} : x ∈ xs → HoldsNumber t x → HoldsNumber t (.list xs)
  | entry {es : List (String × Value)} {e : String × Value} : e ∈ es → HoldsNumber t e.2 →
      HoldsNumber t (.map es)

theorem toPlain_number_eq_error_iff :
    (number t).toPlain = .error e ↔ ¬ Json.Number.Readable t ∧ e = .invalidNumber t := by
  rw [toPlain, map_eq_error_iff, Json.Number.ofStored_eq_error_iff]

theorem exists_element_of_error (h : toPlainElements xs = .error e) :
    ∃ x ∈ xs, x.toPlain = .error e := by
  induction xs with
  | nil => cases h
  | cons x xs ih =>
      rcases bind_eq_error_iff.mp h with h | ⟨_, -, h⟩
      · exact ⟨x, List.mem_cons_self, h⟩
      · rcases bind_eq_error_iff.mp h with h | ⟨_, -, h⟩
        · obtain ⟨y, hy, h⟩ := ih h
          exact ⟨y, List.mem_cons_of_mem _ hy, h⟩
        · cases h

theorem exists_entry_of_error (h : toPlainEntries es = .error e) :
    ∃ x ∈ es, x.2.toPlain = .error e := by
  rw [toPlainEntries_eq] at h
  obtain ⟨x, hx, h⟩ := exists_element_of_error (map_eq_error_iff.mp h)
  obtain ⟨entry, hentry, rfl⟩ := List.mem_map.mp hx
  exact ⟨entry, hentry, h⟩

/-- A failure names a number within the value that cannot be read. -/
theorem exists_number_of_error {v : Value} (h : v.toPlain = .error e) :
    ∃ t, v.HoldsNumber t ∧ ¬ Json.Number.Readable t ∧ e = .invalidNumber t := by
  match v with
  | .number t => exact ⟨t, .number, toPlain_number_eq_error_iff.mp h⟩
  | .numberSet ts =>
      rw [toPlain_numberSet] at h
      obtain ⟨x, hx, h⟩ := exists_element_of_error (map_eq_error_iff.mp h)
      obtain ⟨t, ht, rfl⟩ := List.mem_map.mp hx
      exact ⟨t, .member ht, toPlain_number_eq_error_iff.mp h⟩
  | .list xs =>
      obtain ⟨x, hx, h⟩ := exists_element_of_error (map_eq_error_iff.mp h)
      obtain ⟨t, ht, hbad⟩ := exists_number_of_error h
      exact ⟨t, .element hx ht, hbad⟩
  | .map es =>
      obtain ⟨x, hx, h⟩ := exists_entry_of_error (map_eq_error_iff.mp h)
      obtain ⟨t, ht, hbad⟩ := exists_number_of_error h
      exact ⟨t, .entry hx ht, hbad⟩
  | .string _ | .binary _ | .stringSet _ | .binarySet _ | .bool _ | .null _ => cases h
termination_by sizeOf v
decreasing_by
  · have := List.sizeOf_lt_of_mem hx
    simp
    omega
  · have := List.sizeOf_lt_of_mem hx
    have : sizeOf x.2 < sizeOf x := by cases x; simp
    simp
    omega

theorem readable_of_number {j : Json} (h : (number t).toPlain = .ok j) :
    Json.Number.Readable t := by
  by_contra hbad
  rw [toPlain_number_eq_error_iff.mpr ⟨hbad, rfl⟩] at h
  cases h

theorem exists_toPlain_of_mem {js : List Json} {x : Value} (h : toPlainElements xs = .ok js)
    (hx : x ∈ xs) : ∃ j, x.toPlain = .ok j := by
  have hmem : x.toPlain ∈ js.map Except.ok :=
    toPlainElements_eq_ok_iff.mp h ▸ List.mem_map_of_mem hx
  obtain ⟨j, -, hj⟩ := List.mem_map.mp hmem
  exact ⟨j, hj.symm⟩

/-- All numbers within a value that is read can be read. -/
theorem HoldsNumber.readable {j : Json} (ht : v.HoldsNumber t) (h : v.toPlain = .ok j) :
    Json.Number.Readable t := by
  induction ht generalizing j with
  | number => exact readable_of_number h
  | member hmem =>
      rw [toPlain_numberSet] at h
      obtain ⟨js, hjs, -⟩ := map_eq_ok_iff.mp h
      obtain ⟨j', hj'⟩ := exists_toPlain_of_mem hjs (List.mem_map_of_mem hmem)
      exact readable_of_number hj'
  | element hx _ ih =>
      obtain ⟨js, hjs, -⟩ := map_eq_ok_iff.mp h
      obtain ⟨j', hj'⟩ := exists_toPlain_of_mem hjs hx
      exact ih hj'
  | @entry es e he _ ih =>
      obtain ⟨ms, hms, -⟩ := map_eq_ok_iff.mp h
      rw [toPlainEntries_eq] at hms
      obtain ⟨js, hjs, -⟩ := map_eq_ok_iff.mp hms
      obtain ⟨j', hj'⟩ := exists_toPlain_of_mem hjs (List.mem_map_of_mem he)
      exact ih hj'

/-- Reading fails exactly on a number that cannot be read. -/
theorem exists_error_iff_holdsNumber (v : Value) :
    (∃ e, v.toPlain = .error e) ↔ ∃ t, v.HoldsNumber t ∧ ¬ Json.Number.Readable t := by
  constructor
  · rintro ⟨e, he⟩
    obtain ⟨t, ht, hbad, -⟩ := exists_number_of_error he
    exact ⟨t, ht, hbad⟩
  · rintro ⟨t, ht, hbad⟩
    cases h : v.toPlain with
    | error e => exact ⟨e, rfl⟩
    | ok j => exact absurd (ht.readable h) hbad

end Value

/-! ## Items -/

namespace Item

/-- An item stored anew from the data that it stands for. -/
def renew (item : Item) : Except CodecError Item := item.toPlain >>= ofPlain

theorem ofPlain_toPlain {ms : List (String × Json)} (h : (Json.object ms).Exact) :
    ∃ item, ofPlain (.object ms) = .ok item ∧ item.toPlain = .ok (.object ms) := by
  refine ⟨_, rfl, ?_⟩
  have hplain := Value.toPlain_ofPlain h.storable
  rwa [h.sorted] at hplain

/-- An object is stored and read back without loss.  Whatever is read from an item is stored and
read back without loss as well, and storing it again changes the item at most once.  Reading fails
exactly on a number, at any depth, that is neither a 64-bit integer nor a finite double. -/
theorem plain_lossless :
    (∀ ms, (Json.object ms).Exact → (ofPlain (.object ms) >>= toPlain) = .ok (.object ms)) ∧
    (∀ (item : Item) (o : Json), item.WellFormed → item.toPlain = .ok o →
      ∃ item', item.renew = .ok item' ∧ item'.toPlain = .ok o ∧ item'.renew = .ok item') ∧
    ∀ item : Item, (∃ e, item.toPlain = .error e) ↔
      ∃ t, (Value.map item).HoldsNumber t ∧ ¬ Json.Number.Readable t := by
  refine ⟨?_, ?_, ?_⟩
  · intro ms h
    obtain ⟨item, hitem, hplain⟩ := ofPlain_toPlain h
    exact bind_eq_ok_iff.mpr ⟨item, hitem, hplain⟩
  · intro item o hitem hplain
    have hexact : o.Exact :=
      Value.exact_of_toPlain (.map hitem.ascending hitem.values) hplain
    obtain ⟨ms, -, rfl⟩ := map_eq_ok_iff.mp hplain
    obtain ⟨item', hitem', hplain'⟩ := ofPlain_toPlain hexact
    exact ⟨item', bind_eq_ok_iff.mpr ⟨_, hplain, hitem'⟩, hplain',
      bind_eq_ok_iff.mpr ⟨_, hplain', hitem'⟩⟩
  · intro item
    exact Value.exists_error_iff_holdsNumber (.map item)

/-- The greatest integer and negative zero within an object, and an item with an empty marker that
is not set and two numbers that are not written in the shortest way. -/
theorem plain_lossless_nested :
    let ms : List (String × Json) :=
      [("i", .number (.integer 18446744073709551615)),
        ("o", .object [("x", .array [.null, .number (.double (.zero true))])])]
    let item : Item := [("l", .list [.null false, .numberSet ["+7", "1e2"]])]
    let o : Json := .object [("l", .array [.null,
      .array [.number (.integer 7), .number (.double (.finite false 7036874417766400 (-46)))]])]
    (ofPlain (.object ms) >>= toPlain) = .ok (.object ms) ∧
      item.toPlain = .ok o ∧
      ∃ item', item.renew = .ok item' ∧ item'.toPlain = .ok o ∧ item'.renew = .ok item' := by
  intro ms item o
  have hms : (Json.object ms).Exact := by
    refine .object (by unfold NameMap.Ascending OrderedMap.Ascending; decide) ?_
    simp only [ms, List.forall_mem_cons]
    refine ⟨.number ⟨by decide, by decide⟩, .object (List.pairwise_singleton _ _) ?_,
      List.forall_mem_nil _⟩
    simp only [List.forall_mem_cons]
    refine ⟨.array ?_, List.forall_mem_nil _⟩
    simp only [List.forall_mem_cons]
    exact ⟨⟨.null, rfl⟩, .number ⟨rfl, Binary64.canonical_zero true⟩, List.forall_mem_nil _⟩
  have hitem : item.WellFormed := by
    refine ⟨List.pairwise_singleton _ _, ?_⟩
    simp only [item, List.forall_mem_cons]
    refine ⟨.list ?_, List.forall_mem_nil _⟩
    simp only [List.forall_mem_cons]
    exact ⟨.flat (by decide) (by decide), .flat (by decide) (by decide), List.forall_mem_nil _⟩
  have hplain : item.toPlain = .ok o := rfl
  exact ⟨plain_lossless.1 ms hms, hplain, plain_lossless.2.1 item o hitem hplain⟩

end Item

end ItemStore
