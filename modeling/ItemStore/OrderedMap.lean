/-!
# Ordered maps

A finite map is a list of entries in increasing order of their keys. Everything here is given
the comparison of keys, and takes no law about it for granted: putting an entry walks the list
from its start to the first key that is not smaller, and replaces the value there when that key
compares equal, keeping the key as it was first written.
-/

namespace ItemStore.OrderedMap

variable {κ α : Type}

/-- Put a value under a key. -/
def insert (cmp : κ → κ → Ordering) (k : κ) (v : α) : List (κ × α) → List (κ × α)
  | [] => [(k, v)]
  | (k', v') :: rest =>
      match cmp k k' with
      | .lt => (k, v) :: (k', v') :: rest
      | .eq => (k', v) :: rest
      | .gt => (k', v') :: insert cmp k v rest

/-- The value under a key. The walk ends at the first key that is not smaller. -/
def find? (cmp : κ → κ → Ordering) (k : κ) : List (κ × α) → Option α
  | [] => none
  | (k', v') :: rest =>
      match cmp k k' with
      | .lt => none
      | .eq => some v'
      | .gt => find? cmp k rest

/-- Entries in strictly increasing order of their keys. -/
def Sorted (cmp : κ → κ → Ordering) (m : List (κ × α)) : Prop :=
  m.Pairwise fun a b => cmp a.1 b.1 = .lt

theorem find?_insert_self {cmp : κ → κ → Ordering} [Std.ReflCmp cmp] (k : κ) (v : α)
    (m : List (κ × α)) : find? cmp k (insert cmp k v m) = some v := by
  induction m with
  | nil => simp [insert, find?, Std.ReflCmp.compare_self]
  | cons e rest ih =>
    obtain ⟨k', v'⟩ := e
    cases h : cmp k k' <;> simp [insert, find?, h, ih, Std.ReflCmp.compare_self]

end ItemStore.OrderedMap
