import ItemStore.Page
import Mathlib.Tactic.Common

/-!
# Reading a list page by page

A source of pages serves a list of items if the page from the start is cut off that list, and the
page after the key of any item is cut off what follows the item.  Following the keys from page to
page then goes through the list once (`Serves.exists_chain`): the pages put together are the
list, and a last page that is full is followed by an empty one, so that there are
`items / limit + 1` of them.

Sources in this library keep what comes after a key in a sorted list; `filter_after` is the
reason why that is what follows the item in the list.
-/

namespace ItemStore

variable {α ε : Type}

/-- A list as it is read forward or backward. -/
def inOrder (forward : Bool) (xs : List α) : List α := if forward then xs else xs.reverse

theorem filter_inOrder (forward : Bool) (p : α → Bool) (xs : List α) :
    (inOrder forward xs).filter p = inOrder forward (xs.filter p) := by
  cases forward with
  | true => rfl
  | false => exact List.filter_reverse

theorem map_inOrder {β : Type} (forward : Bool) (f : α → β) (xs : List α) :
    (inOrder forward xs).map f = inOrder forward (xs.map f) := by
  cases forward with
  | true => rfl
  | false => exact List.map_reverse

theorem inOrder_perm (forward : Bool) (xs : List α) : (inOrder forward xs).Perm xs := by
  cases forward with
  | true => exact List.Perm.refl xs
  | false => exact List.reverse_perm xs

theorem mem_inOrder {forward : Bool} {xs : List α} {x : α} : x ∈ inOrder forward xs ↔ x ∈ xs :=
  (inOrder_perm forward xs).mem_iff

/-- A relation as it is met when reading forward or backward. -/
def Along (forward : Bool) (r : α → α → Prop) (x y : α) : Prop := if forward then r x y else r y x

theorem pairwise_inOrder {forward : Bool} {r : α → α → Prop} {xs : List α} (h : xs.Pairwise r) :
    (inOrder forward xs).Pairwise (Along forward r) := by
  cases forward with
  | true => exact h
  | false => exact List.pairwise_reverse.mpr h

theorem Along.asymm {forward : Bool} {r : α → α → Prop} (hr : ∀ a b, r a b → ¬ r b a) (a b : α) :
    Along forward r a b → ¬ Along forward r b a := by
  cases forward with
  | true => exact hr a b
  | false => exact hr b a

/-- There is one way only to put the elements of a list in strictly increasing order. -/
theorem eq_of_perm_of_asymm {r : α → α → Prop} {xs ys : List α} (hr : ∀ a b, r a b → ¬ r b a)
    (h : xs.Perm ys) (hxs : xs.Pairwise r) (hys : ys.Pairwise r) : xs = ys :=
  h.eq_of_pairwise (fun a b _ _ hab hba => absurd hba (hr a b hab)) hxs hys

/-- In a sorted list, what comes after an element is what follows it. -/
theorem filter_after {r : α → α → Prop} {p : α → Bool} {ys zs : List α} {x : α}
    (hp : ∀ e ∈ ys ++ x :: zs, p e = true ↔ r x e) (hasymm : ∀ a b, r a b → ¬ r b a)
    (h : (ys ++ x :: zs).Pairwise r) : (ys ++ x :: zs).filter p = zs := by
  obtain ⟨-, hxzs, hcross⟩ := List.pairwise_append.mp h
  obtain ⟨hx, -⟩ := List.pairwise_cons.mp hxzs
  have hys : ys.filter p = [] := by
    refine List.filter_eq_nil_iff.mpr ?_
    intro e he hpe
    have hxe := (hp e (List.mem_append_left _ he)).mp hpe
    exact hasymm x e hxe (hcross e he x List.mem_cons_self)
  have hself : ¬ p x = true := by
    intro hpx
    have hxx := (hp x (List.mem_append_right _ List.mem_cons_self)).mp hpx
    exact hasymm x x hxx hxx
  have hzs : zs.filter p = zs := by
    refine List.filter_eq_self.mpr ?_
    intro e he
    exact (hp e (List.mem_append_right _ (List.mem_cons_of_mem _ he))).mpr (hx e he)
  rw [List.filter_append, hys, List.nil_append, List.filter_cons_of_neg hself, hzs]

theorem View.upTo_map {β : Type} (limit : Option Nat) (f : α → β) (xs : List α) :
    (upTo limit xs).map f = upTo limit (xs.map f) := by
  cases limit with
  | none => rfl
  | some n => exact List.map_take

namespace Page

variable {fetch : Option Item → Except ε Page} {limit : Option Nat} {keyOf : Item → Item}
  {items : List Item}

/-- The page that a limit cuts off a list. -/
def cut (limit : Option Nat) (keyOf : Item → Item) (items : List Item) : Page :=
  ofItems (View.upTo limit items) (View.reaches limit (View.upTo limit items).length) keyOf

/-- The number of pages that a limit cuts a list of some length into. -/
def count (limit : Option Nat) (length : Nat) : Nat := (limit.map fun n => length / n).getD 0 + 1

/-- The pages of the source are cut off the list. -/
structure Serves (fetch : Option Item → Except ε Page) (limit : Option Nat)
    (keyOf : Item → Item) (items : List Item) : Prop where
  first : fetch none = .ok (cut limit keyOf items)
  next : ∀ ys x zs, items = ys ++ x :: zs → fetch (some (keyOf x)) = .ok (cut limit keyOf zs)

/-- The pages from a start on, each fetched with the last key of the one before, up to the first
one that has none. -/
inductive Chain (fetch : Option Item → Except ε Page) : Option Item → List Page → Prop
  | last {start : Option Item} {page : Page} : fetch start = .ok page → page.lastKey = none →
      Chain fetch start [page]
  | more {start : Option Item} {page : Page} {key : Item} {pages : List Page} :
      fetch start = .ok page → page.lastKey = some key → Chain fetch (some key) pages →
      Chain fetch start (page :: pages)

theorem Serves.mapError {ε' : Type} (h : Serves fetch limit keyOf items) (f : ε → ε') :
    Serves (fun start => (fetch start).mapError f) limit keyOf items where
  first := by
    rw [h.first]
    rfl
  next := by
    intro ys x zs hsplit
    rw [h.next ys x zs hsplit]
    rfl

/-- A list that does not fill a page is the last page. -/
theorem cut_of_short (h : ∀ n ∈ limit, items.length < n) :
    cut limit keyOf items = ⟨items, none⟩ := by
  cases limit with
  | none => rfl
  | some n =>
      have hlt : items.length < n := h n rfl
      have hne : (items.length == n) = false := beq_false_of_ne (Nat.ne_of_lt hlt)
      simp only [cut, ofItems, View.upTo, View.reaches, List.take_of_length_le (Nat.le_of_lt hlt),
        hne]
      rfl

/-- A list that fills a page goes on after the last item of the page. -/
theorem cut_of_long (keyOf : Item → Item) {n : Nat} (hpos : 0 < n) (hle : n ≤ items.length) :
    ∃ ys x zs, items = ys ++ x :: zs ∧ zs.length = items.length - n ∧
      cut (some n) keyOf items = ⟨ys ++ [x], some (keyOf x)⟩ := by
  have hlength : (items.take n).length = n := by rw [List.length_take, Nat.min_eq_left hle]
  have hne : items.take n ≠ [] := List.ne_nil_of_length_pos (by omega)
  obtain ⟨ys, x, hsplit⟩ := (List.eq_nil_or_concat _).resolve_left hne
  rw [List.concat_eq_append] at hsplit
  refine ⟨ys, x, items.drop n, ?_, List.length_drop, ?_⟩
  · have happend := List.take_append_drop n items
    rw [hsplit, List.append_assoc] at happend
    exact happend.symm
  · rw [hsplit] at hlength
    simp only [cut, ofItems, View.upTo, View.reaches, hsplit, hlength, beq_self_eq_true, if_true,
      List.getLast?_concat, Option.map_some]

theorem lastKey_cut_of_full {n : Nat} (hpos : 0 < n)
    (h : (cut (some n) keyOf items).items.length = n) :
    ∃ x, (cut (some n) keyOf items).items.getLast? = some x ∧
      (cut (some n) keyOf items).lastKey = some (keyOf x) := by
  have hle : n ≤ items.length := by
    have hmin : min n items.length = n := by rw [← List.length_take]; exact h
    omega
  obtain ⟨ys, x, zs, -, -, hcut⟩ := cut_of_long keyOf hpos hle
  rw [hcut]
  exact ⟨x, List.getLast?_concat, rfl⟩

theorem lastKey_cut_of_short {n : Nat} (h : (cut (some n) keyOf items).items.length ≠ n) :
    (cut (some n) keyOf items).lastKey = none := by
  have hne : (View.reaches (some n) (View.upTo (some n) items).length) = false :=
    beq_false_of_ne h
  simp only [cut, ofItems, hne]
  rfl

theorem count_of_short (h : ∀ n ∈ limit, items.length < n) : count limit items.length = 1 := by
  cases limit with
  | none => rfl
  | some n => simp [count, Nat.div_eq_of_lt (h n rfl)]

theorem count_of_long {n length : Nat} (hpos : 0 < n) (hle : n ≤ length) :
    count (some n) length = count (some n) (length - n) + 1 := by
  simp only [count, Option.map_some, Option.getD_some]
  rw [Nat.div_eq_sub_div hpos hle]

/-- From any start, following the keys goes through the items that are still to come. -/
theorem Serves.exists_chain_from (hs : Serves fetch limit keyOf items) (hpos : ∀ n ∈ limit, 0 < n)
    {start : Option Item} {ys zs : List Item} (hitems : items = ys ++ zs)
    (hfetch : fetch start = .ok (cut limit keyOf zs)) :
    ∃ pages, Chain fetch start pages ∧ pages.length = count limit zs.length ∧
      pages.flatMap (·.items) = zs ∧
      ∀ page ∈ pages, ∀ key ∈ page.lastKey,
        ∃ x ∈ items, page.items.getLast? = some x ∧ key = keyOf x := by
  -- the induction is on the number of items to come; a page takes at least one of them
  induction hlength : zs.length using Nat.strongRecOn generalizing start ys zs with
  | ind length ih =>
      by_cases hshort : ∀ n ∈ limit, zs.length < n
      · rw [cut_of_short hshort] at hfetch
        refine ⟨[⟨zs, none⟩], Chain.last hfetch rfl, ?_, by simp, ?_⟩
        · rw [← hlength, count_of_short hshort]
          rfl
        · intro page hpage key hkey
          rw [List.mem_singleton.mp hpage] at hkey
          cases hkey
      · simp only [not_forall] at hshort
        obtain ⟨n, hlimit, hle⟩ := hshort
        obtain rfl : limit = some n := hlimit
        have hn : 0 < n := hpos n rfl
        have hle : n ≤ zs.length := Nat.le_of_not_lt hle
        obtain ⟨ys', x, zs', hzs, hlen, hcut⟩ := cut_of_long keyOf hn hle
        rw [hcut] at hfetch
        have hitems' : items = (ys ++ ys') ++ x :: zs' := by rw [hitems, hzs, List.append_assoc]
        have hsplit : items = (ys ++ ys' ++ [x]) ++ zs' := by rw [hitems']; simp
        obtain ⟨pages, hchain, hcount, hflat, hkeys⟩ :=
          ih zs'.length (by omega) hsplit (hs.next _ x zs' hitems') rfl
        refine ⟨_ :: pages, Chain.more hfetch rfl hchain, ?_, ?_, ?_⟩
        · rw [List.length_cons, hcount, hlen, ← hlength, count_of_long hn hle]
        · rw [List.flatMap_cons, hflat, hzs]
          simp
        · intro page hpage key hkey
          rcases List.mem_cons.mp hpage with rfl | hpage
          · obtain rfl : keyOf x = key := Option.some.inj hkey
            exact ⟨x, by rw [hitems']; simp, List.getLast?_concat, rfl⟩
          · exact hkeys page hpage key hkey

/-- Following the keys goes through the list once, and each key is that of the last item of its
page. -/
theorem Serves.exists_chain (hs : Serves fetch limit keyOf items) (hpos : ∀ n ∈ limit, 0 < n) :
    ∃ pages, Chain fetch none pages ∧ pages.length = count limit items.length ∧
      pages.flatMap (·.items) = items ∧
      ∀ page ∈ pages, ∀ key ∈ page.lastKey,
        ∃ x ∈ items, page.items.getLast? = some x ∧ key = keyOf x :=
  hs.exists_chain_from hpos (List.nil_append items).symm hs.first

end Page

end ItemStore
