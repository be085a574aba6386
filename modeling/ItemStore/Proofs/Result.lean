import Mathlib.Tactic.Common

/-!
# Results that may fail

When the steps of a computation succeed.  Proofs take a computation that succeeded apart with
`bind_eq_ok_iff`, step by step, in place of unfolding it, and one that failed with
`bind_eq_error_iff`.  Two computations of the same steps are compared with `KeptBy`: what the first
one results in, the second one does, too.
-/

namespace ItemStore

variable {ε ε' α β : Type} {x : Except ε α}

theorem bind_eq_ok_iff {f : α → Except ε β} {b : β} :
    x >>= f = .ok b ↔ ∃ a, x = .ok a ∧ f a = .ok b := by
  cases x with
  | error e => simp [bind, Except.bind]
  | ok a => simp [bind, Except.bind]

theorem bind_eq_error_iff {f : α → Except ε β} {e : ε} :
    x >>= f = .error e ↔ x = .error e ∨ ∃ a, x = .ok a ∧ f a = .error e := by
  cases x with
  | error e => simp [bind, Except.bind]
  | ok a => simp [bind, Except.bind]

theorem map_eq_ok_iff {f : α → β} {b : β} : x.map f = .ok b ↔ ∃ a, x = .ok a ∧ f a = b := by
  cases x with
  | error e => simp [Except.map]
  | ok a => simp [Except.map]

theorem map_eq_error_iff {f : α → β} {e : ε} : x.map f = .error e ↔ x = .error e := by
  cases x with
  | error e' => simp [Except.map]
  | ok a => simp [Except.map]

theorem mapError_eq_ok_iff {f : ε → ε'} {a : α} : x.mapError f = .ok a ↔ x = .ok a := by
  cases x with
  | error e => simp [Except.mapError]
  | ok a' => simp [Except.mapError]

theorem mapError_eq_error_iff {f : ε → ε'} {e' : ε'} :
    x.mapError f = .error e' ↔ ∃ e, x = .error e ∧ f e = e' := by
  cases x with
  | error e => simp [Except.mapError]
  | ok a => simp [Except.mapError]

/-- Where the first computation succeeds, the second one has the same result. -/
def KeptBy (x y : Except ε α) : Prop := ∀ a, x = .ok a → y = .ok a

theorem KeptBy.refl (x : Except ε α) : KeptBy x x := by
  intro a h
  exact h

theorem KeptBy.bind {y : Except ε α} {f g : α → Except ε β} (h : KeptBy x y)
    (hfg : ∀ a, KeptBy (f a) (g a)) : KeptBy (x >>= f) (y >>= g) := by
  intro b hb
  obtain ⟨a, ha, hb⟩ := bind_eq_ok_iff.mp hb
  exact bind_eq_ok_iff.mpr ⟨a, h a ha, hfg a b hb⟩

theorem KeptBy.mapError {y : Except ε α} (h : KeptBy x y) (f : ε → ε') :
    KeptBy (x.mapError f) (y.mapError f) := by
  intro a ha
  exact mapError_eq_ok_iff.mpr (h a (mapError_eq_ok_iff.mp ha))

end ItemStore
