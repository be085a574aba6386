import ItemStore.Condition.Evaluation

/-!
# Evaluating the parts of a condition

What evaluation does with the operands that name one attribute or one bound parameter, and with a
conjunction, which holds if all its parts do (`Condition.eval_of_conjuncts`).
-/

namespace ItemStore

variable {item : Item} {values : NameMap Value} {name : String} {v : Value}

theorem Item.lookup_singleton (item : Item) (name : String) :
    Item.lookup item [name] = NameMap.get? item name := by
  show (NameMap.get? item name).bind (fun v => some v) = _
  cases NameMap.get? item name <;> rfl

namespace Operand

variable {operand : Operand}

theorem resolve_param (h : NameMap.get? values name = some v) :
    (Operand.param name).resolve item values = .ok (some v) := by
  rw [resolve, h]

theorem resolve_path (item : Item) (values : NameMap Value) (name : String) :
    (Operand.path [name]).resolve item values = .ok (NameMap.get? item name) := by
  rw [resolve, Item.lookup_singleton]

theorem attribute?_eq_some_iff : operand.attribute? = some name ↔ operand = .path [name] := by
  cases operand with
  | param p => simp [attribute?]
  | path segments =>
      cases segments with
      | nil => simp [attribute?]
      | cons s rest => cases rest <;> simp [attribute?]

end Operand

theorem Function.eval_beginsWith {args : List Operand} {operand : Operand}
    (hfirst : args.head? = some (.path [name])) (hsecond : args[1]? = some operand)
    (hv : operand.resolve item values = .ok (some v)) :
    Function.eval item values .beginsWith args =
      .ok ((NameMap.get? item name).any fun w => w.beginsWith v) := by
  have hargument : argument item values .beginsWith args = .ok v := by
    rw [argument, hsecond]
    show (operand.resolve item values).bind _ = _
    rw [hv]
    rfl
  rw [eval, hfirst, ← Item.lookup_singleton]
  show (argument item values .beginsWith args).bind _ = _
  rw [hargument]
  cases Item.lookup item [name] <;> rfl

/-- A conjunction holds if all its parts do. -/
theorem Condition.eval_of_conjuncts {c : Condition} {f : Condition → Bool}
    (h : ∀ d ∈ c.conjuncts, d.eval item values = .ok (f d)) :
    c.eval item values = .ok (c.conjuncts.all f) := by
  induction c with
  | and left right ihl ihr =>
      have hl := ihl fun d hd => h d (List.mem_append_left _ hd)
      have hr := ihr fun d hd => h d (List.mem_append_right _ hd)
      rw [eval, hl, conjuncts, List.all_append]
      cases left.conjuncts.all f with
      | true => exact hr
      | false => rfl
  | _ =>
      rw [h _ List.mem_cons_self, conjuncts, List.all_cons, List.all_nil, Bool.and_true]
      nofun

end ItemStore
