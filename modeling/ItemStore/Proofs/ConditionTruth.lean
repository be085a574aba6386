import ItemStore.Proofs.ConditionText
import ItemStore.Proofs.KeyCondition

/-!
# Conditions as two-valued statements

`Condition.Holds` is the classical reading of a condition: it is a statement about the item, and
and, or and not are the connectives of statements.  A path denotes what it leads to, if it leads
anywhere, and a comparison with an operand that denotes nothing is false.

* Whenever evaluation succeeds, it tells whether the condition holds (`eval_eq_ok`), although it
  does not look at the second part of a conjunction or a disjunction that the first part decides.
* Evaluation fails for one of three reasons, `Condition.Fault` (`eval_eq_error`).  That a call has
  too few arguments is none of them, since a condition that was read from a text has none such.
-/

namespace ItemStore

/-! ## The classical reading -/

/-- The path leads to the value: every name but the last one is that of a map. -/
inductive Item.Leads : Item → List String → Value → Prop
  | here {item : Item} {name : String} {v : Value} : NameMap.get? item name = some v →
      Leads item [name] v
  | into {item m : Item} {name : String} {path : List String} {v : Value} :
      NameMap.get? item name = some (.map m) → Leads m path v → Leads item (name :: path) v

/-- The operand stands for the value. -/
inductive Operand.Denotes (item : Item) (values : NameMap Value) : Operand → Value → Prop
  | path {segments : List String} {v : Value} : Item.Leads item segments v →
      Denotes item values (.path segments) v
  | param {name : String} {v : Value} : NameMap.get? values name = some v →
      Denotes item values (.param name) v

/-- Both operands stand for values, and these are related. -/
def Operand.Related (item : Item) (values : NameMap Value) (related : Value → Value → Bool)
    (left right : Operand) : Prop :=
  ∃ v w, left.Denotes item values v ∧ right.Denotes item values w ∧ related v w = true

/-- The call is true of the item. -/
def Function.Holds (item : Item) (values : NameMap Value) : Function → List Operand → Prop
  | attributeExists, [arg] => ∃ v, arg.Denotes item values v
  | attributeNotExists, [arg] => ¬ ∃ v, arg.Denotes item values v
  | beginsWith, [arg, part] => Operand.Related item values Value.beginsWith arg part
  | contains, [arg, part] => Operand.Related item values Value.containsValue arg part
  | _, _ => False

namespace Condition

/-- The condition is true of the item. -/
def Holds (item : Item) (values : NameMap Value) : Condition → Prop
  | compare left op right => Operand.Related item values (Value.test op) left right
  | between value low high =>
      Operand.Related item values (Value.test .ge) value low ∧
        Operand.Related item values (Value.test .le) value high
  | and left right => left.Holds item values ∧ right.Holds item values
  | or left right => left.Holds item values ∨ right.Holds item values
  | not inner => ¬ inner.Holds item values
  | call f args => f.Holds item values args

/-- Why the condition cannot be evaluated: a parameter is not bound, a call is not about a path, or
the path that is the second argument of a call leads nowhere. -/
inductive Fault (item : Item) (values : NameMap Value) (c : Condition) : ExpressionError → Prop
  | unbound {name : String} : .param name ∈ c.operands → NameMap.get? values name = none →
      Fault item values c (.unresolvedValue name)
  | notPath {f : Function} {args : List Operand} : (f, args) ∈ c.calls →
      (∀ segments, args.head? ≠ some (.path segments)) →
      Fault item values c (.invalidOperand f .notPath)
  | noValue {f : Function} {args : List Operand} {segments : List String} : (f, args) ∈ c.calls →
      f.arity = 2 → args[1]? = some (.path segments) → (∀ v, ¬ Item.Leads item segments v) →
      Fault item values c (.invalidOperand f (.noValue (.path segments)))

end Condition

variable {item : Item} {values : NameMap Value} {e : ExpressionError} {v : Value} {b : Bool}

/-! ## Operands -/

theorem Item.lookup_eq_some_iff {path : List String} :
    Item.lookup item path = some v ↔ Item.Leads item path v := by
  induction path generalizing item with
  | nil => exact ⟨nofun, nofun⟩
  | cons name path ih =>
      cases path with
      | nil =>
          rw [Item.lookup_singleton]
          exact ⟨.here, fun h => by cases h with | here h => exact h | into _ h => cases h⟩
      | cons next rest =>
          rw [Item.lookup, Option.bind_eq_some_iff]
          constructor
          · rintro ⟨w, hw, hrest⟩
            cases w with
            | map m => exact .into hw (ih.mp hrest)
            | _ => cases hrest
          · rintro h
            cases h with
            | into hm hrest => exact ⟨_, hm, ih.mpr hrest⟩

namespace Operand

variable {operand left right : Operand} {related : Value → Value → Bool}

theorem resolve_eq_some_iff :
    operand.resolve item values = .ok (some v) ↔ operand.Denotes item values v := by
  cases operand with
  | path segments =>
      rw [resolve, Except.ok.injEq, Item.lookup_eq_some_iff]
      exact ⟨.path, fun h => by cases h with | path h => exact h⟩
  | param name =>
      constructor
      · intro h
        rw [resolve] at h
        split at h
        next w hw =>
            cases h
            exact .param hw
        next => cases h
      · intro h
        cases h with
        | param h => exact resolve_param h

/-- Where an operand can be resolved, the result is what it denotes. -/
theorem denotes_iff {o : Option Value} (h : operand.resolve item values = .ok o) :
    operand.Denotes item values v ↔ o = some v := by
  rw [← resolve_eq_some_iff, h, Except.ok.injEq]

theorem resolve_eq_error (h : operand.resolve item values = .error e) :
    ∃ name, operand = .param name ∧ NameMap.get? values name = none ∧
      e = .unresolvedValue name := by
  cases operand with
  | path segments => cases h
  | param name =>
      rw [resolve] at h
      split at h
      next => cases h
      next hnone =>
          cases h
          exact ⟨name, rfl, hnone, rfl⟩

theorem related_iff {l r : Option Value} (hl : left.resolve item values = .ok l)
    (hr : right.resolve item values = .ok r) :
    Related item values related left right ↔
      ∃ v w, l = some v ∧ r = some w ∧ related v w = true := by
  simp only [Related, denotes_iff hl, denotes_iff hr]

end Operand

/-! ## Calls -/

namespace Function

variable {f : Function} {args : List Operand} {segments : List String}

theorem argument_eq_ok {w : Value} (h : argument item values f args = .ok w) :
    ∃ part, args[1]? = some part ∧ part.resolve item values = .ok (some w) := by
  rw [argument] at h
  split at h
  next => cases h
  next part hpart =>
      obtain ⟨o, ho, h⟩ := bind_eq_ok_iff.mp h
      cases o with
      | none => cases h
      | some w' =>
          cases h
          exact ⟨part, hpart, ho⟩

/-- A call with as many arguments as the function takes has its second one, so that it is the value
of that argument which may be missing. -/
theorem argument_eq_error (harity : args.length = f.arity) (hf : f.arity = 2)
    (h : argument item values f args = .error e) :
    (∃ name, .param name ∈ args ∧ NameMap.get? values name = none ∧ e = .unresolvedValue name) ∨
      ∃ segments, args[1]? = some (.path segments) ∧ (∀ v, ¬ Item.Leads item segments v) ∧
        e = .invalidOperand f (.noValue (.path segments)) := by
  rw [argument] at h
  split at h
  next hnone =>
      rw [List.getElem?_eq_none_iff] at hnone
      omega
  next part hpart =>
      rcases bind_eq_error_iff.mp h with h | ⟨o, ho, h⟩
      · obtain ⟨name, rfl, hname, rfl⟩ := Operand.resolve_eq_error h
        exact Or.inl ⟨name, List.mem_of_getElem? hpart, hname, rfl⟩
      · cases o with
        | some w => cases h
        | none =>
            cases h
            cases part with
            | param name =>
                rw [Operand.resolve] at ho
                split at ho <;> cases ho
            | path segments =>
                refine Or.inr ⟨segments, hpart, fun v hv => ?_, rfl⟩
                have hnone := (Operand.denotes_iff ho).mp (.path hv)
                cases hnone

/-- A call that succeeds tells whether it is true. -/
theorem eval_eq_ok (harity : args.length = f.arity) (h : f.eval item values args = .ok b) :
    b = true ↔ f.Holds item values args := by
  rw [eval] at h
  split at h
  next segments hpath =>
      have hleft : (Operand.path segments).resolve item values =
        .ok (Item.lookup item segments) := rfl
      cases f with
      | attributeExists =>
          obtain ⟨arg, rfl⟩ := List.length_eq_one_iff.mp harity
          cases hpath
          cases h
          simp only [Holds, Operand.denotes_iff hleft, Option.isSome_iff_exists]
      | attributeNotExists =>
          obtain ⟨arg, rfl⟩ := List.length_eq_one_iff.mp harity
          cases hpath
          cases h
          simp only [Holds, Operand.denotes_iff hleft, ← Option.isSome_iff_exists]
          cases Item.lookup item segments <;> simp
      | beginsWith | contains =>
          obtain ⟨arg, part, rfl⟩ := List.length_eq_two.mp harity
          cases hpath
          obtain ⟨w, hw, h⟩ := bind_eq_ok_iff.mp h
          obtain ⟨_, ⟨⟩, hright⟩ := argument_eq_ok hw
          cases h
          simp only [Holds, Operand.related_iff hleft hright]
          cases Item.lookup item segments <;> simp
  next => cases h

theorem eval_eq_error (harity : args.length = f.arity) (h : f.eval item values args = .error e) :
    (Condition.call f args).Fault item values e := by
  have hargument : f.arity = 2 → argument item values f args = .error e →
      (Condition.call f args).Fault item values e := by
    intro hf h
    rcases argument_eq_error harity hf h with ⟨name, hmem, hname, rfl⟩ | ⟨path, hpath, hnone, rfl⟩
    · exact .unbound hmem hname
    · exact .noValue List.mem_cons_self hf hpath hnone
  rw [eval] at h
  split at h
  next segments hpath =>
      cases f with
      | attributeExists | attributeNotExists => cases h
      | beginsWith | contains =>
          rcases bind_eq_error_iff.mp h with h | ⟨w, hw, h⟩
          · exact hargument rfl h
          · cases h
  next hpath =>
      cases h
      exact .notPath List.mem_cons_self hpath

end Function

/-! ## Conditions -/

namespace Condition

variable {c d : Condition}

theorem Fault.mono (h : c.Fault item values e) (hoperands : ∀ o ∈ c.operands, o ∈ d.operands)
    (hcalls : ∀ p ∈ c.calls, p ∈ d.calls) : d.Fault item values e := by
  cases h with
  | unbound hmem hname => exact .unbound (hoperands _ hmem) hname
  | notPath hmem hpath => exact .notPath (hcalls _ hmem) hpath
  | noValue hmem hf hpath hnone => exact .noValue (hcalls _ hmem) hf hpath hnone

/-- Evaluation that succeeds tells whether the condition holds. -/
theorem eval_eq_ok (harity : ∀ p ∈ c.calls, p.2.length = p.1.arity)
    (h : c.eval item values = .ok b) : b = true ↔ c.Holds item values := by
  induction c generalizing b with
  | compare left op right =>
      obtain ⟨l, hl, h⟩ := bind_eq_ok_iff.mp h
      obtain ⟨r, hr, h⟩ := bind_eq_ok_iff.mp h
      rw [Holds, Operand.related_iff hl hr]
      cases l <;> cases r <;> cases h <;> simp
  | between value low high =>
      obtain ⟨v, hv, h⟩ := bind_eq_ok_iff.mp h
      obtain ⟨lo, hlo, h⟩ := bind_eq_ok_iff.mp h
      obtain ⟨hi, hhi, h⟩ := bind_eq_ok_iff.mp h
      rw [Holds, Operand.related_iff hv hlo, Operand.related_iff hv hhi]
      cases v <;> cases lo <;> cases hi <;> cases h <;> simp
  | and left right ihl ihr =>
      obtain ⟨hleft, hright⟩ := List.forall_mem_append.mp harity
      obtain ⟨l, hl, h⟩ := bind_eq_ok_iff.mp h
      rw [Holds, ← ihl hleft hl]
      cases l with
      | true => simpa using ihr hright h
      | false =>
          cases h
          simp
  | or left right ihl ihr =>
      obtain ⟨hleft, hright⟩ := List.forall_mem_append.mp harity
      obtain ⟨l, hl, h⟩ := bind_eq_ok_iff.mp h
      rw [Holds, ← ihl hleft hl]
      cases l with
      | true =>
          cases h
          simp
      | false => simpa using ihr hright h
  | not inner ih =>
      obtain ⟨i, hi, h⟩ := bind_eq_ok_iff.mp h
      cases h
      rw [Holds, ← ih harity hi]
      simp
  | call f args => exact Function.eval_eq_ok (harity (f, args) List.mem_cons_self) h

/-- Evaluation that fails has one of the known reasons. -/
theorem eval_eq_error (harity : ∀ p ∈ c.calls, p.2.length = p.1.arity)
    (h : c.eval item values = .error e) : c.Fault item values e := by
  have hresolve : ∀ {c : Condition} {o : Operand}, o ∈ c.operands →
      o.resolve item values = .error e → c.Fault item values e := by
    intro c o ho h
    obtain ⟨name, rfl, hname, rfl⟩ := Operand.resolve_eq_error h
    exact .unbound ho hname
  induction c with
  | compare left op right =>
      rcases bind_eq_error_iff.mp h with h | ⟨l, hl, h⟩
      · exact hresolve (by simp [operands]) h
      rcases bind_eq_error_iff.mp h with h | ⟨r, hr, h⟩
      · exact hresolve (by simp [operands]) h
      cases l <;> cases r <;> cases h
  | between value low high =>
      rcases bind_eq_error_iff.mp h with h | ⟨v, hv, h⟩
      · exact hresolve (by simp [operands]) h
      rcases bind_eq_error_iff.mp h with h | ⟨lo, hlo, h⟩
      · exact hresolve (by simp [operands]) h
      rcases bind_eq_error_iff.mp h with h | ⟨hi, hhi, h⟩
      · exact hresolve (by simp [operands]) h
      cases v <;> cases lo <;> cases hi <;> cases h
  | and left right ihl ihr =>
      obtain ⟨hleft, hright⟩ := List.forall_mem_append.mp harity
      rcases bind_eq_error_iff.mp h with h | ⟨l, hl, h⟩
      · exact (ihl hleft h).mono (fun _ => List.mem_append_left _) fun _ => List.mem_append_left _
      cases l with
      | false => cases h
      | true =>
          exact (ihr hright h).mono (fun _ => List.mem_append_right _)
            fun _ => List.mem_append_right _
  | or left right ihl ihr =>
      obtain ⟨hleft, hright⟩ := List.forall_mem_append.mp harity
      rcases bind_eq_error_iff.mp h with h | ⟨l, hl, h⟩
      · exact (ihl hleft h).mono (fun _ => List.mem_append_left _) fun _ => List.mem_append_left _
      cases l with
      | true => cases h
      | false =>
          exact (ihr hright h).mono (fun _ => List.mem_append_right _)
            fun _ => List.mem_append_right _
  | not inner ih =>
      rcases bind_eq_error_iff.mp h with h | ⟨i, hi, h⟩
      · exact (ih harity h).mono (fun _ => id) fun _ => id
      · cases h
  | call f args => exact Function.eval_eq_error (harity (f, args) List.mem_cons_self) h

/-- Every parameter is bound, every call is about a path, and the second argument of a call is a
parameter. -/
structure Settled (values : NameMap Value) (c : Condition) : Prop where
  bound : ∀ name, .param name ∈ c.operands → (NameMap.get? values name).isSome = true
  path : ∀ p ∈ c.calls, ∃ segments, p.2.head? = some (.path segments)
  param : ∀ p ∈ c.calls, p.1 = .beginsWith ∨ p.1 = .contains →
    ∃ name, p.2[1]? = some (.param name)

/-- A settled condition has no faults. -/
theorem Settled.not_fault (h : c.Settled values) : ¬ c.Fault item values e := by
  intro hfault
  cases hfault with
  | unbound hmem hname =>
      have hbound := h.bound _ hmem
      rw [hname] at hbound
      cases hbound
  | notPath hmem hpath =>
      obtain ⟨segments, hhead⟩ := h.path _ hmem
      exact hpath segments hhead
  | @noValue f args segments hmem hf hpath _ =>
      have hpart : f = .beginsWith ∨ f = .contains := by
        cases f with
        | beginsWith => exact Or.inl rfl
        | contains => exact Or.inr rfl
        | attributeExists | attributeNotExists => cases hf
      obtain ⟨name, hparam⟩ := h.param _ hmem hpart
      rw [hpath] at hparam
      cases hparam

/-- Evaluating a condition that was read from a text goes wrong in known ways only.  It fails for a
parameter that is not bound, for a call that is not about a path or for a second argument that
leads nowhere, and never for the number of arguments; and if it does not fail, it tells whether the
condition holds.  A condition whose parameters are bound, and whose calls have a path and then, if
they have a second argument, a parameter, is evaluated for every item. -/
theorem eval_two_valued {text : String} {c : Condition} (h : ofText text = .ok c) (item : Item)
    (values : NameMap Value) :
    (∀ e, c.eval item values = .error e → c.Fault item values e) ∧
    (∀ f n, c.eval item values ≠ .error (.arity f n)) ∧
    (∀ b, c.eval item values = .ok b → (b = true ↔ c.Holds item values)) ∧
    (c.Settled values → ∃ b, c.eval item values = .ok b ∧ (b = true ↔ c.Holds item values)) := by
  have harity := (exists_ofText_iff.mp ⟨text, h⟩).length_eq_arity
  have hfault : ∀ e, c.eval item values = .error e → c.Fault item values e := fun _ =>
    eval_eq_error harity
  refine ⟨hfault, ?arity, fun _ => eval_eq_ok harity, ?settled⟩
  case arity =>
    intro f n heval
    cases hfault _ heval
  case settled =>
    intro hsettled
    cases heval : c.eval item values with
    | error e => exact absurd (hfault e heval) hsettled.not_fault
    | ok b => exact ⟨b, rfl, eval_eq_ok harity heval⟩

/-- The path of the range stops at a value that is no map, so the range is false and its negation
true. -/
theorem eval_two_valued_nested :
    ∃ c, ofText "not a.b between :x and :x and contains(a, :y)" = .ok c ∧
      c.Settled [(":x", .number "1"), (":y", .string "o")] ∧
      c.eval [("a", .string "one")] [(":x", .number "1"), (":y", .string "o")] = .ok true ∧
      c.Holds [("a", .string "one")] [(":x", .number "1"), (":y", .string "o")] := by
  have htext : ofText "not a.b between :x and :x and contains(a, :y)" =
      .ok (.and (.not (.between (.path ["a", "b"]) (.param ":x") (.param ":x")))
        (.call .contains [.path ["a"], .param ":y"])) := by decide +kernel
  have hsettled : (Condition.and (.not (.between (.path ["a", "b"]) (.param ":x") (.param ":x")))
      (.call .contains [.path ["a"], .param ":y"])).Settled
        [(":x", .number "1"), (":y", .string "o")] := by
    refine ⟨?_, by simp [calls], by simp [calls]⟩
    intro name hname
    have hcases : name = ":x" ∨ name = ":y" := by simpa [operands] using hname
    rcases hcases with rfl | rfl <;> rfl
  obtain ⟨-, -, -, heval⟩ := eval_two_valued htext [("a", .string "one")]
    [(":x", .number "1"), (":y", .string "o")]
  obtain ⟨b, hb, hholds⟩ := heval hsettled
  obtain rfl : b = true := Except.ok.inj (hb.symm.trans (by decide +kernel))
  exact ⟨_, htext, hsettled, hb, hholds.mp rfl⟩

end Condition

end ItemStore
