import ItemStore.Proofs.ConditionTruth

/-!
# Parameters without a value

A parameter without a value is an error only where evaluation comes to it, `Condition.Asks`: the
second part of a conjunction or a disjunction is not looked at where the first part decides it.  The
leading operands of a condition are looked at for every item (`Condition.bound_of_eval`).

What succeeds although some parameters have no value does not need these: with values for more
parameters the result is the same (`Condition.eval_keptBy`, `KeyCondition.ofCondition_keptBy`).
-/

namespace ItemStore

variable {item : Item} {values values' : NameMap Value} {name : String} {b : Bool}

/-! ## What evaluation comes to -/

/-- The operand can be resolved: it is no parameter without a value. -/
def Operand.Bound (values : NameMap Value) : Operand → Prop
  | path _ => True
  | param p => ∃ v, NameMap.get? values p = some v

/-- Among the operands, from the left, the first parameter without a value is the one named. -/
inductive Operand.FirstUnbound (values : NameMap Value) (name : String) : List Operand → Prop
  | here {rest : List Operand} : NameMap.get? values name = none →
      FirstUnbound values name (.param name :: rest)
  | there {operand : Operand} {rest : List Operand} : operand.Bound values →
      FirstUnbound values name rest → FirstUnbound values name (operand :: rest)

namespace Condition

/-- Evaluating the condition on the item comes to the parameter, which has no value. -/
inductive Asks (item : Item) (values : NameMap Value) (name : String) : Condition → Prop
  | compare {left right : Operand} {op : Comparator} :
      Operand.FirstUnbound values name [left, right] →
      Asks item values name (.compare left op right)
  | between {value low high : Operand} :
      Operand.FirstUnbound values name [value, low, high] →
      Asks item values name (.between value low high)
  | call {f : Function} {args : List Operand} {segments : List String} : f.arity = 2 →
      args.head? = some (.path segments) → args[1]? = some (.param name) →
      NameMap.get? values name = none → Asks item values name (.call f args)
  | andLeft {left right : Condition} : Asks item values name left →
      Asks item values name (.and left right)
  | andRight {left right : Condition} : left.eval item values = .ok true →
      Asks item values name right → Asks item values name (.and left right)
  | orLeft {left right : Condition} : Asks item values name left →
      Asks item values name (.or left right)
  | orRight {left right : Condition} : left.eval item values = .ok false →
      Asks item values name right → Asks item values name (.or left right)
  | not {inner : Condition} : Asks item values name inner → Asks item values name (.not inner)

/-- The operands of the part that is evaluated first, whatever the item is. -/
def leading : Condition → List Operand
  | compare left _ right => [left, right]
  | between value low high => [value, low, high]
  | call _ args => args
  | and left _ | or left _ => left.leading
  | not inner => inner.leading

end Condition

namespace Operand

variable {operand : Operand} {rest : List Operand}

theorem bound_of_resolve {o : Option Value} (h : operand.resolve item values = .ok o) :
    operand.Bound values := by
  cases operand with
  | path segments => trivial
  | param p =>
      rw [resolve] at h
      split at h
      next v hv => exact ⟨v, hv⟩
      next => cases h

theorem Bound.exists_resolve (h : operand.Bound values) (item : Item) :
    ∃ o, operand.resolve item values = .ok o := by
  cases operand with
  | path segments => exact ⟨_, rfl⟩
  | param p =>
      obtain ⟨v, hv⟩ := h
      exact ⟨some v, resolve_param hv⟩

theorem resolve_eq_unresolved_iff :
    operand.resolve item values = .error (.unresolvedValue name) ↔
      operand = .param name ∧ NameMap.get? values name = none := by
  constructor
  · intro h
    obtain ⟨p, rfl, hp, he⟩ := resolve_eq_error h
    cases he
    exact ⟨rfl, hp⟩
  · rintro ⟨rfl, hname⟩
    rw [resolve, hname]

/-- Operands are resolved from the left, up to one that has no value. -/
theorem resolve_bind_eq_unresolved_iff {β : Type} {f : Option Value → Except ExpressionError β}
    (h : ∀ o, f o = .error (.unresolvedValue name) ↔ FirstUnbound values name rest) :
    operand.resolve item values >>= f = .error (.unresolvedValue name) ↔
      FirstUnbound values name (operand :: rest) := by
  rw [bind_eq_error_iff, resolve_eq_unresolved_iff]
  constructor
  · rintro (⟨rfl, hname⟩ | ⟨o, ho, hf⟩)
    · exact .here hname
    · exact .there (bound_of_resolve ho) ((h o).mp hf)
  · intro hfirst
    cases hfirst with
    | here hname => exact Or.inl ⟨rfl, hname⟩
    | there hbound hrest =>
        obtain ⟨o, ho⟩ := hbound.exists_resolve item
        exact Or.inr ⟨o, ho, (h o).mpr hrest⟩

theorem not_firstUnbound_nil : ¬ FirstUnbound values name [] := nofun

end Operand

namespace Function

variable {f : Function} {args : List Operand}

theorem argument_eq_unresolved_iff :
    argument item values f args = .error (.unresolvedValue name) ↔
      args[1]? = some (.param name) ∧ NameMap.get? values name = none := by
  rw [argument]
  cases args[1]? with
  | none => simp
  | some operand =>
      rw [bind_eq_error_iff, Operand.resolve_eq_unresolved_iff, Option.some.injEq]
      refine or_iff_left ?_
      rintro ⟨o, -, h⟩
      cases o <;> cases h

theorem eval_eq_unresolved_iff :
    f.eval item values args = .error (.unresolvedValue name) ↔
      f.arity = 2 ∧ (∃ segments, args.head? = some (.path segments)) ∧
        args[1]? = some (.param name) ∧ NameMap.get? values name = none := by
  rw [eval]
  split
  next segments hpath =>
      have hargument : ∀ {g : Value → Except ExpressionError Bool}, (∀ v e, g v ≠ .error e) →
        (argument item values f args >>= g = .error (.unresolvedValue name) ↔
          args[1]? = some (.param name) ∧ NameMap.get? values name = none) := by
        intro g hg
        rw [bind_eq_error_iff, argument_eq_unresolved_iff]
        refine or_iff_left ?_
        rintro ⟨v, -, h⟩
        exact hg v _ h
      cases f with
      | attributeExists | attributeNotExists => simp [arity]
      | beginsWith | contains =>
          refine (hargument ?_).trans ?_
          · intro v e h
            cases h
          · simp [arity, hpath]
  next hpath =>
      constructor
      · intro h
        cases h
      · rintro ⟨-, ⟨segments, hhead⟩, -⟩
        exact absurd hhead (hpath segments)

/-- A call that is evaluated has a path, and a second argument with a value if it takes two. -/
theorem bound_of_eval (harity : args.length = f.arity) (h : f.eval item values args = .ok b) :
    ∀ o ∈ args, o.Bound values := by
  rw [eval] at h
  split at h
  next segments hpath =>
      cases f with
      | attributeExists | attributeNotExists =>
          obtain ⟨arg, rfl⟩ := List.length_eq_one_iff.mp harity
          cases hpath
          exact List.forall_mem_singleton.mpr trivial
      | beginsWith | contains =>
          obtain ⟨arg, part, rfl⟩ := List.length_eq_two.mp harity
          cases hpath
          obtain ⟨w, hw, -⟩ := bind_eq_ok_iff.mp h
          obtain ⟨_, ⟨⟩, hpart⟩ := argument_eq_ok hw
          exact List.forall_mem_cons.mpr
            ⟨trivial, List.forall_mem_singleton.mpr (Operand.bound_of_resolve hpart)⟩
  next => cases h

end Function

namespace Condition

variable {c : Condition}

/-- A parameter is reported exactly if evaluation comes to it. -/
theorem eval_eq_unresolved_iff :
    c.eval item values = .error (.unresolvedValue name) ↔ c.Asks item values name := by
  induction c with
  | compare left op right =>
      have heval : (compare left op right).eval item values = .error (.unresolvedValue name) ↔
          Operand.FirstUnbound values name [left, right] := by
        rw [eval]
        refine Operand.resolve_bind_eq_unresolved_iff fun l => ?_
        refine Operand.resolve_bind_eq_unresolved_iff fun r => ?_
        refine iff_of_false ?_ Operand.not_firstUnbound_nil
        intro h
        cases l <;> cases r <;> cases h
      rw [heval]
      refine ⟨.compare, fun h => ?_⟩
      cases h with
      | compare h => exact h
  | between value low high =>
      have heval : (between value low high).eval item values = .error (.unresolvedValue name) ↔
          Operand.FirstUnbound values name [value, low, high] := by
        rw [eval]
        refine Operand.resolve_bind_eq_unresolved_iff fun v => ?_
        refine Operand.resolve_bind_eq_unresolved_iff fun lo => ?_
        refine Operand.resolve_bind_eq_unresolved_iff fun hi => ?_
        refine iff_of_false ?_ Operand.not_firstUnbound_nil
        intro h
        cases v <;> cases lo <;> cases hi <;> cases h
      rw [heval]
      refine ⟨.between, fun h => ?_⟩
      cases h with
      | between h => exact h
  | and left right ihl ihr =>
      rw [eval, bind_eq_error_iff, ihl]
      constructor
      · rintro (h | ⟨b, hb, h⟩)
        · exact .andLeft h
        · cases b with
          | true => exact .andRight hb (ihr.mp h)
          | false => cases h
      · intro h
        cases h with
        | andLeft h => exact Or.inl h
        | andRight hb h => exact Or.inr ⟨true, hb, ihr.mpr h⟩
  | or left right ihl ihr =>
      rw [eval, bind_eq_error_iff, ihl]
      constructor
      · rintro (h | ⟨b, hb, h⟩)
        · exact .orLeft h
        · cases b with
          | true => cases h
          | false => exact .orRight hb (ihr.mp h)
      · intro h
        cases h with
        | orLeft h => exact Or.inl h
        | orRight hb h => exact Or.inr ⟨false, hb, ihr.mpr h⟩
  | not inner ih =>
      rw [eval, bind_eq_error_iff, ih]
      constructor
      · rintro (h | ⟨b, -, h⟩)
        · exact .not h
        · cases h
      · intro h
        cases h with
        | not h => exact Or.inl h
  | call f args =>
      rw [eval, Function.eval_eq_unresolved_iff]
      constructor
      · rintro ⟨hf, ⟨segments, hhead⟩, harg, hname⟩
        exact .call hf hhead harg hname
      · intro h
        cases h with
        | call hf hhead harg hname => exact ⟨hf, ⟨_, hhead⟩, harg, hname⟩

/-- Evaluation looks at the leading operands of a condition, whatever the item is. -/
theorem bound_of_eval (harity : ∀ p ∈ c.calls, p.2.length = p.1.arity)
    (h : c.eval item values = .ok b) : ∀ o ∈ c.leading, o.Bound values := by
  induction c generalizing b with
  | compare left op right =>
      obtain ⟨l, hl, h⟩ := bind_eq_ok_iff.mp h
      obtain ⟨r, hr, -⟩ := bind_eq_ok_iff.mp h
      simp [leading, Operand.bound_of_resolve hl, Operand.bound_of_resolve hr]
  | between value low high =>
      obtain ⟨v, hv, h⟩ := bind_eq_ok_iff.mp h
      obtain ⟨lo, hlo, h⟩ := bind_eq_ok_iff.mp h
      obtain ⟨hi, hhi, -⟩ := bind_eq_ok_iff.mp h
      simp [leading, Operand.bound_of_resolve hv, Operand.bound_of_resolve hlo,
        Operand.bound_of_resolve hhi]
  | and left right ihl ihr | or left right ihl ihr =>
      obtain ⟨l, hl, -⟩ := bind_eq_ok_iff.mp h
      exact ihl (List.forall_mem_append.mp harity).1 hl
  | not inner ih =>
      obtain ⟨i, hi, -⟩ := bind_eq_ok_iff.mp h
      exact ih harity hi
  | call f args =>
      exact Function.bound_of_eval (harity (f, args) List.mem_cons_self) h

end Condition

/-! ## More values -/

/-- The parameters that have values have the same ones among other values. -/
def NameMap.Within (values values' : NameMap Value) : Prop :=
  ∀ name v, NameMap.get? values name = some v → NameMap.get? values' name = some v

theorem Operand.resolve_keptBy (h : values.Within values') (operand : Operand) :
    KeptBy (operand.resolve item values) (operand.resolve item values') := by
  intro o ho
  cases operand with
  | path segments => exact ho
  | param p =>
      obtain ⟨v, hv⟩ := bound_of_resolve ho
      rw [resolve_param hv] at ho
      rw [resolve_param (h p v hv), ho]

theorem Function.eval_keptBy (h : values.Within values') (f : Function) (args : List Operand) :
    KeptBy (f.eval item values args) (f.eval item values' args) := by
  have hargument : KeptBy (argument item values f args) (argument item values' f args) := by
    rw [argument, argument]
    split
    · exact .refl _
    · exact (Operand.resolve_keptBy h _).bind fun _ => .refl _
  rw [eval, eval]
  split
  · cases f with
    | attributeExists | attributeNotExists => exact .refl _
    | beginsWith | contains => exact hargument.bind fun _ => .refl _
  · exact .refl _

theorem Condition.eval_keptBy (h : values.Within values') (c : Condition) :
    KeptBy (c.eval item values) (c.eval item values') := by
  induction c with
  | compare left op right =>
      rw [eval, eval]
      refine (Operand.resolve_keptBy h left).bind fun _ => ?_
      exact (Operand.resolve_keptBy h right).bind fun _ => .refl _
  | between value low high =>
      rw [eval, eval]
      refine (Operand.resolve_keptBy h value).bind fun _ => ?_
      refine (Operand.resolve_keptBy h low).bind fun _ => ?_
      exact (Operand.resolve_keptBy h high).bind fun _ => .refl _
  | and left right ihl ihr =>
      rw [eval, eval]
      refine ihl.bind fun b => ?_
      cases b with
      | true => exact ihr
      | false => exact .refl _
  | or left right ihl ihr =>
      rw [eval, eval]
      refine ihl.bind fun b => ?_
      cases b with
      | true => exact .refl _
      | false => exact ihr
  | not inner ih =>
      rw [eval, eval]
      exact ih.bind fun _ => .refl _
  | call f args =>
      rw [eval, eval]
      exact Function.eval_keptBy h f args

namespace KeyCondition

variable {a : KeyAttribute} {s : KeySchema}

theorem parameter_keptBy (h : values.Within values') (operand : Operand) :
    KeptBy (parameter values operand) (parameter values' operand) := by
  intro v hv
  obtain ⟨name, rfl, hname⟩ := parameter_eq_ok_iff.mp hv
  exact parameter_eq_ok_iff.mpr ⟨name, rfl, h name v hname⟩

theorem keyOf_keptBy (h : values.Within values') (operand : Operand) :
    KeptBy (keyOf a values operand) (keyOf a values' operand) :=
  (parameter_keptBy h operand).bind fun _ => .refl _

theorem partitionValue_keptBy (h : values.Within values') (c : Condition) :
    KeptBy (partitionValue a values c) (partitionValue a values' c) := by
  cases c with
  | compare left op right =>
      cases op with
      | eq => exact (parameter_keptBy h _).bind fun _ => .refl _
      | _ => exact .refl _
  | _ => exact .refl _

theorem sortCondition_keptBy (h : values.Within values') (c : Condition) :
    KeptBy (sortCondition a values c) (sortCondition a values' c) := by
  cases c with
  | compare left op right =>
      rw [sortCondition, sortCondition]
      split
      · exact (keyOf_keptBy h right).bind fun _ => .refl _
      · exact (keyOf_keptBy h left).bind fun _ => .refl _
  | between value low high =>
      refine (keyOf_keptBy h low).bind fun _ => ?_
      exact (keyOf_keptBy h high).bind fun _ => .refl _
  | call f args =>
      rw [sortCondition, sortCondition]
      split
      · exact .refl _
      · exact (keyOf_keptBy h _).bind fun _ => .refl _
  | _ => exact .refl _

theorem add_keptBy (h : values.Within values') (parts : Parts) (c : Condition) :
    KeptBy (parts.add s values c) (parts.add s values' c) := by
  rw [Parts.add, Parts.add]
  split
  · exact .refl _
  split
  · split
    · exact .refl _
    · exact (partitionValue_keptBy h c).bind fun _ => .refl _
  split
  · split
    · split
      · exact .refl _
      · exact (sortCondition_keptBy h c).bind fun _ => .refl _
    · exact .refl _
  · exact .refl _

theorem addAll_keptBy (h : values.Within values') (parts : Parts) (cs : List Condition) :
    KeptBy (Parts.addAll s values parts cs) (Parts.addAll s values' parts cs) := by
  induction cs generalizing parts with
  | nil => exact .refl _
  | cons c cs ih => exact (add_keptBy h parts c).bind ih

theorem ofCondition_keptBy (h : values.Within values') (c : Condition) :
    KeptBy (ofCondition s values c) (ofCondition s values' c) :=
  (addAll_keptBy h _ _).bind fun _ => .refl _

end KeyCondition

end ItemStore
