import ItemStore.Key.Condition
import ItemStore.Proofs.Evaluation
import ItemStore.Proofs.ItemKey
import ItemStore.Proofs.Result

/-!
# What a key condition selects

A condition that is split into a key condition is true of exactly the items whose key satisfies
the key condition, `KeyCondition.eval_of_ofCondition`.  Evaluation compares values of attributes,
the key condition compares keys; both agree where the values have one of the key types and the
texts of numbers are numbers (`Value.test_eq_holds`).  The splitting is followed part by part:
`Parts.add_eq_ok` says what taking in a part can do, and each part is true exactly if the key
satisfies what it adds (`Parts.add_sound`).
-/

namespace ItemStore

variable {item : Item} {values : NameMap Value} {a : KeyAttribute} {k : SortKey} {v w : Value}

/-! ## Comparing values and keys -/

/-- Values of one key type are compared as keys. -/
theorem Value.test_eq_holds {type : ScalarType} (op : Comparator) (hv : v.kind = type.kind)
    (hw : w.kind = type.kind) (hvn : (SortKey.ofValue v).numeric = true)
    (hwn : (SortKey.ofValue w).numeric = true) :
    Value.test op v w = op.holds ((SortKey.ofValue v).compare (SortKey.ofValue w)) := by
  cases type with
  | string =>
      cases v <;> cases hv
      cases w <;> cases hw
      rfl
  | binary =>
      cases v <;> cases hv
      cases w <;> cases hw
      rfl
  | number =>
      cases v <;> cases hv
      cases w <;> cases hw
      obtain ⟨c, hc, -⟩ := Decimal.exists_normal_of_isNumber hvn
      obtain ⟨d, hd, -⟩ := Decimal.exists_normal_of_isNumber hwn
      simp [Value.test, Value.order?, SortKey.ofValue, SortKey.compare, Decimal.compareTexts, hc,
        hd]

/-- Values begin with each other as keys do. -/
theorem Value.beginsWith_eq_holds (v w : Value) :
    v.beginsWith w = (SortCondition.beginsWith (SortKey.ofValue w)).holds (SortKey.ofValue v) := by
  cases w <;> cases v <;> rfl

/-! ## Parts of a condition -/

/-- What a condition compares. -/
def Condition.operands : Condition → List Operand
  | compare left _ right => [left, right]
  | between value low high => [value, low, high]
  | call _ args => args
  | and left right => left.operands ++ right.operands
  | or left right => left.operands ++ right.operands
  | not inner => inner.operands

/-- The number texts that are bound to the parameters of a condition are numbers. -/
def Condition.NumericUnder (values : NameMap Value) (c : Condition) : Prop :=
  ∀ name, .param name ∈ c.operands → ∀ v, NameMap.get? values name = some v →
    (SortKey.ofValue v).numeric = true

/-- Whether a key satisfies a key condition. -/
def KeyCondition.matches (c : KeyCondition) (pk sk : SortKey) : Bool :=
  pk.same (SortKey.ofValue c.partition) && (c.sort.map fun s => s.holds sk).getD true

theorem Operand.resolve_attribute {operand : Operand} {name : String}
    (h : operand.attribute? = some name) :
    operand.resolve item values = .ok (NameMap.get? item name) := by
  rw [attribute?_eq_some_iff.mp h, resolve_path]

namespace KeyCondition

variable {operand : Operand} {c : Condition}

/-- The number texts that the key condition compares with are numbers. -/
def Numeric (k : KeyCondition) : Prop :=
  (SortKey.ofValue k.partition).numeric = true ∧
    ∀ s ∈ k.sort, ∀ j ∈ s.operands, j.numeric = true

theorem parameter_eq_ok_iff :
    parameter values operand = .ok v ↔
      ∃ name, operand = .param name ∧ NameMap.get? values name = some v := by
  cases operand with
  | path segments => simp [parameter]
  | param name =>
      cases h : NameMap.get? values name <;> simp [parameter, h]

theorem resolve_parameter (h : parameter values operand = .ok v) :
    operand.resolve item values = .ok (some v) := by
  obtain ⟨name, rfl, hv⟩ := parameter_eq_ok_iff.mp h
  rw [Operand.resolve, hv]

theorem numeric_parameter (hc : c.NumericUnder values) (hmem : operand ∈ c.operands)
    (h : parameter values operand = .ok v) : (SortKey.ofValue v).numeric = true := by
  obtain ⟨name, rfl, hv⟩ := parameter_eq_ok_iff.mp h
  exact hc name hmem v hv

theorem keyOf_eq_ok_iff :
    keyOf a values operand = .ok k ↔ ∃ v, parameter values operand = .ok v ∧
      v.kind = a.type.kind ∧ k = SortKey.ofValue v := by
  simp only [keyOf, bind_eq_ok_iff, mapError_eq_ok_iff, KeyAttribute.check_eq_ok_iff]

/-! ## What one part says -/

/-- A comparison with a parameter, on either side, is one of keys. -/
theorem eval_compare {left right : Operand} {op : Comparator} {j : SortKey}
    (hread : a.read item = .ok k) (hk : k.numeric = true)
    (hc : (Condition.compare left op right).NumericUnder values)
    (hname : attributeOf (.compare left op right) = some a.name)
    (h : keyOf a values (if left.attribute?.isSome then right else left) = .ok j) :
    (Condition.compare left op right).eval item values =
      .ok ((if left.attribute?.isSome then op else op.flipped).holds (k.compare j)) ∧
      j.numeric = true := by
  obtain ⟨w, hw, hwkind, rfl⟩ := KeyAttribute.read_eq_ok_iff.mp hread
  obtain ⟨v, hv, hvkind, rfl⟩ := keyOf_eq_ok_iff.mp h
  have hattribute : left.attribute?.or right.attribute? = some a.name := by
    rw [attributeOf] at hname
    split at hname
    · cases hname
    · exact hname
  cases hleft : left.attribute? with
  | some name =>
      rw [hleft, Option.isSome_some, if_pos rfl] at hv
      obtain rfl : name = a.name := by
        rw [hleft, Option.some_or] at hattribute
        exact Option.some.inj hattribute
      have hn := numeric_parameter hc (by simp [Condition.operands]) hv
      refine ⟨?_, hn⟩
      rw [Condition.eval, Operand.resolve_attribute hleft, resolve_parameter hv, hw]
      show Except.ok (Value.test op w v) = _
      rw [Value.test_eq_holds op hwkind hvkind hk hn]
      rfl
  | none =>
      rw [hleft, Option.isSome_none, if_neg Bool.false_ne_true] at hv
      rw [hleft, Option.none_or] at hattribute
      have hn := numeric_parameter hc (by simp [Condition.operands]) hv
      refine ⟨?_, hn⟩
      rw [Condition.eval, Operand.resolve_attribute hattribute, resolve_parameter hv, hw]
      show Except.ok (Value.test op v w) = _
      rw [Value.test_eq_holds op hvkind hwkind hn hk, ← SortKey.compare_swap (SortKey.ofValue w),
        ← Comparator.holds_flipped_swap, Ordering.swap_swap]
      rfl

theorem keyOf_of_partitionValue {left right : Operand}
    (h : partitionValue a values (.compare left .eq right) = .ok v) :
    keyOf a values (if left.attribute?.isSome then right else left) =
      .ok (SortKey.ofValue v) := by
  simp only [partitionValue, bind_eq_ok_iff, mapError_eq_ok_iff, Except.ok.injEq] at h
  obtain ⟨w, hw, j, hj, rfl⟩ := h
  exact keyOf_eq_ok_iff.mpr ⟨w, hw, (KeyAttribute.check_eq_ok_iff.mp hj).1, rfl⟩

/-- The part that picks a partition is true of the items with its partition key. -/
theorem eval_of_partitionValue (hread : a.read item = .ok k) (hk : k.numeric = true)
    (hc : c.NumericUnder values) (hname : attributeOf c = some a.name)
    (h : partitionValue a values c = .ok v) :
    c.eval item values = .ok (k.same (SortKey.ofValue v)) ∧
      (SortKey.ofValue v).numeric = true := by
  cases c with
  | compare left op right =>
      cases op with
      | eq =>
          obtain ⟨heval, hn⟩ := eval_compare hread hk hc hname (keyOf_of_partitionValue h)
          refine ⟨?_, hn⟩
          rw [heval]
          cases left.attribute?.isSome <;> rfl
      | _ => cases h
  | _ => cases h

theorem holds_of_comparison {op : Comparator} {j : SortKey} {s : SortCondition}
    (h : comparison op j = .ok s) :
    (∀ k, s.holds k = op.holds (k.compare j)) ∧ s.operands = [j] := by
  cases op <;> cases h <;> exact ⟨fun k => rfl, rfl⟩

theorem sortCondition_compare_eq_ok_iff {left right : Operand} {op : Comparator}
    {s : SortCondition} :
    sortCondition a values (.compare left op right) = .ok s ↔
      ∃ j, keyOf a values (if left.attribute?.isSome then right else left) = .ok j ∧
        comparison (if left.attribute?.isSome then op else op.flipped) j = .ok s := by
  rw [sortCondition]
  split <;> exact bind_eq_ok_iff

theorem sortCondition_between_eq_ok_iff {value low high : Operand} {s : SortCondition} :
    sortCondition a values (.between value low high) = .ok s ↔
      ∃ l u, keyOf a values low = .ok l ∧ keyOf a values high = .ok u ∧ l.compare u ≠ .gt ∧
        s = .between l u := by
  simp only [sortCondition, bind_eq_ok_iff]
  constructor
  · rintro ⟨l, hl, u, hu, h⟩
    split at h
    next => cases h
    next hle =>
        cases h
        exact ⟨l, u, hl, hu, hle, rfl⟩
  · rintro ⟨l, u, hl, hu, hle, rfl⟩
    exact ⟨l, hl, u, hu, if_neg hle⟩

theorem sortCondition_call_eq_ok_iff {f : Function} {args : List Operand} {s : SortCondition} :
    sortCondition a values (.call f args) = .ok s ↔
      ∃ operand j, args[1]? = some operand ∧ keyOf a values operand = .ok j ∧
        (∀ text, j ≠ .number text) ∧ s = .beginsWith j := by
  rw [sortCondition]
  cases args[1]? with
  | none => simp
  | some operand =>
      simp only [bind_eq_ok_iff, Option.some.injEq, exists_and_left, exists_eq_left']
      refine exists_congr ?_
      intro j
      refine and_congr_right ?_
      intro _
      cases j <;> simp [eq_comm]

/-- A range with parameters as its bounds is one of keys. -/
theorem eval_between {value low high : Operand} {l u : SortKey} (hread : a.read item = .ok k)
    (hk : k.numeric = true) (hc : (Condition.between value low high).NumericUnder values)
    (hname : value.attribute? = some a.name) (hl : keyOf a values low = .ok l)
    (hu : keyOf a values high = .ok u) :
    (Condition.between value low high).eval item values =
      .ok ((SortCondition.between l u).holds k) ∧ l.numeric = true ∧ u.numeric = true := by
  obtain ⟨w, hw, hwkind, rfl⟩ := KeyAttribute.read_eq_ok_iff.mp hread
  obtain ⟨vl, hvl, hlkind, rfl⟩ := keyOf_eq_ok_iff.mp hl
  obtain ⟨vu, hvu, hukind, rfl⟩ := keyOf_eq_ok_iff.mp hu
  have hln := numeric_parameter hc (by simp [Condition.operands]) hvl
  have hun := numeric_parameter hc (by simp [Condition.operands]) hvu
  refine ⟨?_, hln, hun⟩
  rw [Condition.eval, Operand.resolve_attribute hname, resolve_parameter hvl,
    resolve_parameter hvu, hw]
  show Except.ok (Value.test .ge w vl && Value.test .le w vu) = _
  rw [Value.test_eq_holds .ge hwkind hlkind hk hln, Value.test_eq_holds .le hwkind hukind hk hun]
  rfl

/-- A prefix test against a parameter is one of keys. -/
theorem eval_beginsWith {args : List Operand} {operand : Operand} {j : SortKey}
    (hread : a.read item = .ok k) (hc : (Condition.call .beginsWith args).NumericUnder values)
    (hname : attributeOf (.call .beginsWith args) = some a.name)
    (hargument : args[1]? = some operand) (hj : keyOf a values operand = .ok j) :
    (Condition.call .beginsWith args).eval item values =
      .ok ((SortCondition.beginsWith j).holds k) ∧ j.numeric = true := by
  obtain ⟨w, hw, -, rfl⟩ := KeyAttribute.read_eq_ok_iff.mp hread
  obtain ⟨v, hv, -, rfl⟩ := keyOf_eq_ok_iff.mp hj
  have hfirst : args.head? = some (.path [a.name]) := by
    obtain ⟨first, hfirst, hpath⟩ := Option.bind_eq_some_iff.mp hname
    rw [hfirst, Operand.attribute?_eq_some_iff.mp hpath]
  refine ⟨?_, numeric_parameter hc (List.mem_of_getElem? hargument) hv⟩
  rw [Condition.eval, Function.eval_beginsWith hfirst hargument (resolve_parameter hv), hw]
  exact congrArg Except.ok (Value.beginsWith_eq_holds w v)

/-- A part on the sort key is true of the items whose sort key satisfies it. -/
theorem eval_of_sortCondition {s : SortCondition} (hread : a.read item = .ok k)
    (hk : k.numeric = true) (hc : c.NumericUnder values) (hname : attributeOf c = some a.name)
    (h : sortCondition a values c = .ok s) :
    c.eval item values = .ok (s.holds k) ∧ ∀ j ∈ s.operands, j.numeric = true := by
  cases c with
  | compare left op right =>
      obtain ⟨j, hj, hs⟩ := sortCondition_compare_eq_ok_iff.mp h
      obtain ⟨heval, hn⟩ := eval_compare hread hk hc hname hj
      obtain ⟨hholds, hoperands⟩ := holds_of_comparison hs
      rw [heval, hholds, hoperands]
      exact ⟨rfl, fun j' hj' => List.mem_singleton.mp hj' ▸ hn⟩
  | between value low high =>
      obtain ⟨l, u, hl, hu, -, rfl⟩ := sortCondition_between_eq_ok_iff.mp h
      obtain ⟨heval, hln, hun⟩ := eval_between hread hk hc hname hl hu
      refine ⟨heval, ?_⟩
      intro j hj
      rcases List.mem_cons.mp hj with rfl | hj
      · exact hln
      · exact List.mem_singleton.mp hj ▸ hun
  | call f args =>
      cases f with
      | beginsWith =>
          obtain ⟨operand, j, hargument, hj, -, rfl⟩ := sortCondition_call_eq_ok_iff.mp h
          obtain ⟨heval, hn⟩ := eval_beginsWith hread hc hname hargument hj
          exact ⟨heval, fun j' hj' => List.mem_singleton.mp hj' ▸ hn⟩
      | _ => cases hname
  | _ => cases h

/-! ## All parts -/

variable {s : KeySchema} {parts parts' : Parts} {pk sk : SortKey}

/-- Whether a key satisfies the parts that have been found. -/
def Parts.matches (parts : Parts) (pk sk : SortKey) : Bool :=
  (parts.partition.map fun v => pk.same (SortKey.ofValue v)).getD true &&
    (parts.sort.map fun s => s.holds sk).getD true

/-- The number texts that the parts compare with are numbers. -/
def Parts.Numeric (parts : Parts) : Prop :=
  (∀ v ∈ parts.partition, (SortKey.ofValue v).numeric = true) ∧
    ∀ s ∈ parts.sort, ∀ k ∈ s.operands, k.numeric = true

/-- What taking in a part can do: it adds the partition value, or the condition on the sort key,
where there was none yet. -/
theorem Parts.add_eq_ok (h : parts.add s values c = .ok parts') :
    (attributeOf c = some s.partition.name ∧ parts.partition = none ∧
      ∃ v, partitionValue s.partition values c = .ok v ∧
        parts' = { parts with partition := some v }) ∨
    ∃ a, s.sort = some a ∧ attributeOf c = some a.name ∧ parts.sort = none ∧
      ∃ cond, sortCondition a values c = .ok cond ∧ parts' = { parts with sort := some cond } := by
  cases hname : attributeOf c with
  | none =>
      rw [Parts.add, hname] at h
      cases h
  | some name =>
      simp only [Parts.add, hname] at h
      split at h
      next hpname =>
          split at h
          next => cases h
          next hfree =>
              obtain ⟨v, hv, h⟩ := bind_eq_ok_iff.mp h
              cases h
              exact Or.inl ⟨by rw [hpname], by simpa using hfree, v, hv, rfl⟩
      next =>
          split at h
          next a ha =>
              split at h
              next haname =>
                  split at h
                  next => cases h
                  next hfree =>
                      obtain ⟨cond, hcond, h⟩ := bind_eq_ok_iff.mp h
                      cases h
                      exact Or.inr ⟨a, ha, by rw [haname], by simpa using hfree, cond, hcond, rfl⟩
              next => cases h
          next => cases h

/-- A part that is taken in is true exactly if the key satisfies what it adds. -/
theorem Parts.add_sound (h : parts.add s values c = .ok parts')
    (hx : s.extract item = .ok (pk, sk)) (hpk : pk.numeric = true) (hsk : sk.numeric = true)
    (hc : c.NumericUnder values) :
    ∃ b, c.eval item values = .ok b ∧ parts'.matches pk sk = (parts.matches pk sk && b) ∧
      (parts.Numeric → parts'.Numeric) := by
  obtain ⟨hreadpk, hreadsk⟩ := KeySchema.extract_eq_ok_iff.mp hx
  rcases Parts.add_eq_ok h with
    ⟨hname, hnone, v, hv, rfl⟩ | ⟨a, ha, hname, hnone, cond, hcond, rfl⟩
  · obtain ⟨heval, hn⟩ := eval_of_partitionValue hreadpk hpk hc hname hv
    refine ⟨_, heval, ?_, ?_⟩
    · simp only [Parts.matches, hnone, Option.map_some, Option.map_none, Option.getD_some,
        Option.getD_none, Bool.true_and, Bool.and_comm]
    · intro hparts
      refine ⟨?_, hparts.2⟩
      intro w hw
      cases hw
      exact hn
  · have hreada : a.read item = .ok sk := by
      rw [KeySchema.readSort, ha] at hreadsk
      exact hreadsk
    obtain ⟨heval, hn⟩ := eval_of_sortCondition hreada hsk hc hname hcond
    refine ⟨_, heval, ?_, ?_⟩
    · simp only [Parts.matches, hnone, Option.map_some, Option.map_none, Option.getD_some,
        Option.getD_none, Bool.and_true]
    · intro hparts
      refine ⟨hparts.1, ?_⟩
      intro s hs
      cases hs
      exact hn

theorem Parts.addAll_sound {cs : List Condition} (h : Parts.addAll s values parts cs = .ok parts')
    (hx : s.extract item = .ok (pk, sk)) (hpk : pk.numeric = true) (hsk : sk.numeric = true)
    (hcs : ∀ c ∈ cs, c.NumericUnder values) :
    ∃ f : Condition → Bool, (∀ c ∈ cs, c.eval item values = .ok (f c)) ∧
      parts'.matches pk sk = (parts.matches pk sk && cs.all f) ∧
      (parts.Numeric → parts'.Numeric) := by
  -- the truth values are those of the evaluation itself, so that they do not depend on the parts
  refine ⟨fun c => (c.eval item values).toOption.getD false, ?_⟩
  induction cs generalizing parts with
  | nil =>
      cases h
      exact ⟨fun c hc => (List.not_mem_nil hc).elim, by simp, id⟩
  | cons c cs ih =>
      obtain ⟨parts₁, hadd, hrest⟩ := bind_eq_ok_iff.mp h
      obtain ⟨b, hb, hmatch, hnumeric⟩ := add_sound hadd hx hpk hsk (hcs c List.mem_cons_self)
      obtain ⟨heval, hmatches, hnumerics⟩ := ih hrest fun d hd => hcs d (List.mem_cons_of_mem _ hd)
      have hcb : (c.eval item values).toOption.getD false = b := by rw [hb]; rfl
      refine ⟨?_, ?_, fun hn => hnumerics (hnumeric hn)⟩
      · intro d hd
        rcases List.mem_cons.mp hd with rfl | hd
        · show d.eval item values = .ok ((d.eval item values).toOption.getD false)
          rw [hcb, hb]
        · exact heval d hd
      · rw [hmatches, hmatch, List.all_cons, hcb, Bool.and_assoc]

/-- A condition that is a key condition is true of exactly the items whose key satisfies the key
condition, which compares with numbers only. -/
theorem eval_of_ofCondition {k : KeyCondition} (h : ofCondition s values c = .ok k)
    (hx : s.extract item = .ok (pk, sk)) (hpk : pk.numeric = true) (hsk : sk.numeric = true)
    (hc : ∀ d ∈ c.conjuncts, d.NumericUnder values) :
    c.eval item values = .ok (k.matches pk sk) ∧ k.Numeric := by
  obtain ⟨parts, hparts, h⟩ := bind_eq_ok_iff.mp h
  obtain ⟨f, heval, hmatches, hnumeric⟩ := Parts.addAll_sound hparts hx hpk hsk hc
  split at h
  next v hv =>
      cases h
      have hnothing : (Parts.mk none none).Numeric := ⟨nofun, nofun⟩
      obtain ⟨hpartition, hsort⟩ := hnumeric hnothing
      refine ⟨?_, hpartition v hv, hsort⟩
      rw [Condition.eval_of_conjuncts heval]
      simp only [Parts.matches, hv, Option.map_some, Option.map_none, Option.getD_some,
        Option.getD_none, Bool.true_and] at hmatches
      exact congrArg Except.ok hmatches.symm
  next => cases h

end KeyCondition

end ItemStore
