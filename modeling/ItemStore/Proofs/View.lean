import ItemStore.Proofs.KeyValue
import ItemStore.Proofs.Paging

/-!
# Pages of a view

A position stands for the list of what its keys stand for, its place, and positions whose number
texts are numbers are ordered as their places are (`Position.compare_eq_compare_place`).  The
order of the positions is a lawful one on these only, so that a view is sorted as the list of its
places is (`View.ascending_sort`).

The pages that are cut out of a sorted view, each after the position of the key that the page
before ended with, serve the items of the view (`View.serves_fetch`).
-/

namespace ItemStore

/-- What a position stands for. -/
abbrev Place := List KeyValue

/-- Places are ordered value by value. -/
def Place.compare : Place → Place → Ordering := List.compareLex KeyValue.compare

instance : Std.TransCmp Place.compare := inferInstanceAs (Std.TransCmp (List.compareLex _))

instance : Std.LawfulEqCmp Place.compare :=
  inferInstanceAs (Std.LawfulEqCmp (List.compareLex _))

namespace Position

/-- What the position stands for. -/
def place (p : Position) : Place := p.map SortKey.value

/-- Whether the texts of the number keys are numbers. -/
def numeric (p : Position) : Bool := p.all SortKey.numeric

theorem compare_eq_compare_place {p q : Position} (hp : p.numeric = true)
    (hq : q.numeric = true) : p.compare q = p.place.compare q.place := by
  induction p generalizing q with
  | nil =>
      cases q with
      | nil => rfl
      | cons k q => rfl
  | cons j p ih =>
      cases q with
      | nil => rfl
      | cons k q =>
          rw [numeric, List.all_cons, Bool.and_eq_true] at hp hq
          have hjk := SortKey.compare_eq_compare_value hp.1 hq.1
          have hrest : List.compareLex SortKey.compare p q =
              List.compareLex KeyValue.compare (p.map SortKey.value) (q.map SortKey.value) :=
            ih hp.2 hq.2
          show List.compareLex SortKey.compare (j :: p) (k :: q) = List.compareLex KeyValue.compare
            (j.value :: p.map SortKey.value) (k.value :: q.map SortKey.value)
          rw [List.compareLex_cons_cons, List.compareLex_cons_cons, hjk, hrest]

end Position

namespace View

variable {view : View} {forward : Bool} {ε : Type}

/-- The number texts in the positions are numbers. -/
def Numeric (view : View) : Prop := ∀ e ∈ view, e.1.numeric = true

/-- The first entry comes before the second one. -/
def Before (a b : Position × Item) : Prop := a.1.place.compare b.1.place = .lt

theorem Before.asymm (a b : Position × Item) : Before a b → ¬ Before b a := by
  intro hab hba
  have hgt : a.1.place.compare b.1.place = .gt := Std.OrientedCmp.gt_iff_lt.mpr hba
  rw [hab] at hgt
  cases hgt

/-! ## Sorting -/

theorem sort_perm (view : View) : view.sort.Perm view := List.mergeSort_perm view _

theorem mem_sort {e : Position × Item} : e ∈ view.sort ↔ e ∈ view := (sort_perm view).mem_iff

/-- A sorted view is in weakly increasing order of its places. -/
theorem weakly_ascending_sort (h : view.Numeric) :
    view.sort.Pairwise fun a b => a.1.place.compare b.1.place ≠ .gt := by
  have hmap : (view.sort).map (·.1.place) =
      (view.map (·.1.place)).mergeSort fun p q => p.compare q != .gt := by
    refine List.map_mergeSort ?_
    intro a ha b hb
    rw [Position.le, Position.compare_eq_compare_place (h a ha) (h b hb)]
  have hpairwise : ((view.map (·.1.place)).mergeSort fun p q =>
      p.compare q != .gt).Pairwise fun p q => (p.compare q != .gt) = true := by
    refine List.pairwise_mergeSort ?_ ?_ _
    · intro p q r hpq hqr
      have hle := Std.TransCmp.isLE_trans (Ordering.isLE_iff_ne_gt.mpr (bne_iff_ne.mp hpq))
        (Ordering.isLE_iff_ne_gt.mpr (bne_iff_ne.mp hqr))
      exact bne_iff_ne.mpr (Ordering.isLE_iff_ne_gt.mp hle)
    · intro p q
      rw [Bool.or_eq_true, bne_iff_ne, bne_iff_ne]
      by_cases hgt : p.compare q = .gt
      · right
        rw [Std.OrientedCmp.gt_iff_lt.mp hgt]
        exact Ordering.noConfusion
      · exact Or.inl hgt
  rw [← hmap] at hpairwise
  exact (List.pairwise_map.mp hpairwise).imp fun h => bne_iff_ne.mp h

/-- A view whose entries have different places is sorted in increasing order of these. -/
theorem ascending_sort (h : view.Numeric)
    (hne : view.Pairwise fun a b => a.1.place ≠ b.1.place) : view.sort.Pairwise Before := by
  have hsymm : ∀ {a b : Position × Item}, a.1.place ≠ b.1.place → b.1.place ≠ a.1.place :=
    fun h => h.symm
  have hdistinct := (List.Perm.pairwise_iff hsymm (sort_perm view)).mpr hne
  refine (hdistinct.and (weakly_ascending_sort h)).imp fun {a b} hab => ?_
  cases hcmp : a.1.place.compare b.1.place with
  | lt => exact hcmp
  | eq => exact absurd (Std.LawfulEqCmp.eq_of_compare hcmp) hab.1
  | gt => exact absurd hcmp hab.2

/-! ## Pages -/

/-- The position after which a page starts. -/
def startAt (position : Item → Except ε Position) :
    Option Item → Except ε (Option Position)
  | none => .ok none
  | some key => (position key).map some

/-- Cut a page out of a view after the position of a key. -/
def fetch (view : View) (position : Item → Except ε Position) (keyOf : Item → Item)
    (forward : Bool) (limit : Option Nat) (startKey : Option Item) : Except ε Page :=
  (startAt position startKey).map fun start =>
    Page.ofItems (view.page start forward limit).1 (view.page start forward limit).2 keyOf

variable {position : Item → Except ε Position} {keyOf : Item → Item} {limit : Option Nat}
  {startKey : Option Item}

theorem fetch_of_startAt {start : Option Position} (h : startAt position startKey = .ok start) :
    view.fetch position keyOf forward limit startKey = .ok (Page.cut limit keyOf
      (((inOrder forward view).filter fun e => beyond forward start e.1).map (·.2))) := by
  rw [fetch, h, Page.cut, ← upTo_map]
  rfl

theorem mapError_fetch {ε' : Type} (f : ε → ε') :
    (view.fetch position keyOf forward limit startKey).mapError f =
      view.fetch (fun x => (position x).mapError f) keyOf forward limit startKey := by
  cases startKey with
  | none => rfl
  | some key =>
      rw [fetch, fetch, startAt, startAt]
      cases position key <;> rfl

/-- To lie beyond the position of an entry is to come after the entry. -/
theorem beyond_iff_along (h : view.Numeric) {a b : Position × Item} (ha : a ∈ view)
    (hb : b ∈ view) : beyond forward (some a.1) b.1 = true ↔ Along forward Before a b := by
  simp only [beyond, beq_iff_eq, Position.compare_eq_compare_place (h b hb) (h a ha)]
  cases forward with
  | true => exact Std.OrientedCmp.gt_iff_lt
  | false => exact Iff.rfl

/-- The pages of a sorted view serve its items, if the position of an item can be told from its
key. -/
theorem serves_fetch (h : view.Numeric) (hsorted : view.Pairwise Before)
    (hkey : ∀ e ∈ view, position (keyOf e.2) = .ok e.1) :
    Page.Serves (view.fetch position keyOf forward limit) limit keyOf
      (inOrder forward (view.map (·.2))) where
  first := by
    have hall : (inOrder forward view).filter (fun e => beyond forward none e.1) =
        inOrder forward view := List.filter_eq_self.mpr fun _ _ => rfl
    rw [fetch_of_startAt rfl, hall, map_inOrder]
  next := by
    intro ys x zs hsplit
    rw [← map_inOrder] at hsplit
    obtain ⟨as, bs, hview, hys, hbs⟩ := List.map_eq_append_iff.mp hsplit
    obtain ⟨b, cs, rfl, rfl, rfl⟩ := List.map_eq_cons_iff.mp hbs
    have hmem : ∀ e, e ∈ as ++ b :: cs → e ∈ view := fun e he =>
      mem_inOrder.mp (hview ▸ he : e ∈ inOrder forward view)
    have hb : b ∈ view := hmem b (List.mem_append_right _ List.mem_cons_self)
    have hstart : startAt position (some (keyOf b.2)) = .ok (some b.1) := by
      rw [startAt, hkey b hb]
      rfl
    rw [fetch_of_startAt hstart, hview,
      filter_after (fun e he => beyond_iff_along h hb (hmem e he)) (Along.asymm Before.asymm)
        (hview ▸ pairwise_inOrder hsorted)]

end View

end ItemStore
