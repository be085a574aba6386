import ItemStore.Proofs.ConditionText
import ItemStore.Proofs.KeyCondition
import ItemStore.Store.Error
import Mathlib.Data.List.Permutation

/-!
# The shape of key conditions

A key condition picks a partition, by one equality of the partition attribute and a parameter, and
may restrict the sort key, by one comparison, range or beginning.  `Condition.States` says this of
the conjuncts of a condition, in whatever order and nesting they stand, and these are exactly the
conditions that are split, among those that give no function more arguments than it takes
(`KeyCondition.ofCondition_iff_states`).  Each part is told first: what picks a partition (`Picks`),
what restricts the sort key (`Restricts`), and that taking in a part asks for just these
(`Parts.add_iff`).  What the parts add up to is found by induction over the conjuncts
(`Parts.addAll_iff`).

All other conditions are refused, among them those with a part that no key condition has,
`Condition.Offends`.  A condition that was put together by hand may give a function more arguments
than it takes.  It is split as if it did not (`KeyCondition.ofCondition_trim`).
-/

namespace ItemStore

/-- The parameter is bound to a value of the attribute's type. -/
def KeyAttribute.Binds (a : KeyAttribute) (values : NameMap Value) (param : String) (v : Value) :
    Prop :=
  NameMap.get? values param = some v ∧ v.kind = a.type.kind

/-- A parameter that is bound to a value is bound to no other. -/
theorem KeyAttribute.binds_iff {a : KeyAttribute} {values : NameMap Value} {param : String}
    {v w : Value} (h : NameMap.get? values param = some w) :
    a.Binds values param v ↔ v = w ∧ w.kind = a.type.kind := by
  rw [Binds, h, Option.some.injEq]
  constructor
  · rintro ⟨rfl, hkind⟩
    exact ⟨rfl, hkind⟩
  · rintro ⟨rfl, hkind⟩
    exact ⟨rfl, hkind⟩

/-- The key that a parameter stands for is a number exactly if its attribute has numbers. -/
theorem KeyAttribute.Binds.ne_number_iff {a : KeyAttribute} {values : NameMap Value}
    {param : String} {v : Value} (h : a.Binds values param v) :
    (∀ text, SortKey.ofValue v ≠ .number text) ↔ a.type ≠ .number := by
  obtain ⟨name, type⟩ := a
  obtain ⟨-, hkind⟩ := h
  cases type <;> cases v <;> cases hkind <;> simp [SortKey.ofValue]

/-- The condition that a comparison with a key puts on sort keys.  Inequality puts none. -/
inductive Comparator.Gives (k : SortKey) : Comparator → SortCondition → Prop
  | eq : Gives k .eq (.eq k)
  | lt : Gives k .lt (.lt k)
  | le : Gives k .le (.le k)
  | gt : Gives k .gt (.gt k)
  | ge : Gives k .ge (.ge k)

namespace Condition

/-- The condition picks the partition of a value: the attribute equals a parameter, on either
side. -/
inductive Picks (a : KeyAttribute) (values : NameMap Value) : Condition → Value → Prop
  | right {p : String} {v : Value} : a.Binds values p v →
      Picks a values (.compare (.path [a.name]) .eq (.param p)) v
  | left {p : String} {v : Value} : a.Binds values p v →
      Picks a values (.compare (.param p) .eq (.path [a.name])) v

/-- The condition restricts the sort key: by a comparison with a parameter, which is read from the
other side if the parameter stands on the left, by a range between two parameters that is not
inverted, or by a beginning, which numbers have not. -/
inductive Restricts (a : KeyAttribute) (values : NameMap Value) : Condition → SortCondition → Prop
  | right {p : String} {v : Value} {op : Comparator} {r : SortCondition} : a.Binds values p v →
      op.Gives (SortKey.ofValue v) r →
      Restricts a values (.compare (.path [a.name]) op (.param p)) r
  | left {p : String} {v : Value} {op : Comparator} {r : SortCondition} : a.Binds values p v →
      op.flipped.Gives (SortKey.ofValue v) r →
      Restricts a values (.compare (.param p) op (.path [a.name])) r
  | between {p q : String} {low high : Value} : a.Binds values p low → a.Binds values q high →
      (SortKey.ofValue low).compare (SortKey.ofValue high) ≠ .gt →
      Restricts a values (.between (.path [a.name]) (.param p) (.param q))
        (.between (SortKey.ofValue low) (SortKey.ofValue high))
  | beginsWith {p : String} {v : Value} : a.Binds values p v → a.type ≠ .number →
      Restricts a values (.call .beginsWith [.path [a.name], .param p])
        (.beginsWith (SortKey.ofValue v))

/-- The key condition that a condition states: its conjuncts are one that picks a partition and
perhaps one that restricts the sort key. -/
inductive States (s : KeySchema) (values : NameMap Value) (c : Condition) : KeyCondition → Prop
  | partition {p : Condition} {v : Value} : c.conjuncts = [p] → p.Picks s.partition values v →
      States s values c ⟨v, none⟩
  | both {p q : Condition} {a : KeyAttribute} {v : Value} {r : SortCondition} :
      c.conjuncts.Perm [p, q] → p.Picks s.partition values v → s.sort = some a →
      q.Restricts a values r → States s values c ⟨v, some r⟩

/-- The condition without the arguments that a function is given beyond those that it takes. -/
def trim : Condition → Condition
  | and left right => .and left.trim right.trim
  | or left right => .or left.trim right.trim
  | not inner => .not inner.trim
  | call f args => .call f (args.take f.arity)
  | c => c

end Condition

namespace KeyCondition

variable {s : KeySchema} {values : NameMap Value} {a : KeyAttribute} {k : SortKey} {v : Value}
  {r : SortCondition} {c d : Condition} {ds : List Condition} {parts parts' : Parts}

theorem comparison_eq_ok_iff {op : Comparator} : comparison op k = .ok r ↔ op.Gives k r := by
  constructor
  · intro h
    cases op <;> cases h <;> constructor
  · intro h
    cases h <;> rfl

theorem keyOf_eq_ok_iff_binds {operand : Operand} :
    keyOf a values operand = .ok k ↔
      ∃ p v, operand = .param p ∧ a.Binds values p v ∧ k = SortKey.ofValue v := by
  rw [keyOf_eq_ok_iff]
  constructor
  · rintro ⟨v, hv, hkind, rfl⟩
    obtain ⟨p, rfl, hp⟩ := parameter_eq_ok_iff.mp hv
    exact ⟨p, v, rfl, ⟨hp, hkind⟩, rfl⟩
  · rintro ⟨p, v, rfl, ⟨hp, hkind⟩, rfl⟩
    exact ⟨v, parameter_eq_ok_iff.mpr ⟨p, rfl, hp⟩, hkind, rfl⟩

/-- A comparison that names an attribute and has a parameter for the other operand. -/
theorem sides_of_attributeOf {left right : Operand} {op : Comparator} {name p : String}
    (hname : attributeOf (.compare left op right) = some name)
    (hp : (if left.attribute?.isSome then right else left) = .param p) :
    (left = .path [name] ∧ right = .param p) ∨ (left = .param p ∧ right = .path [name]) := by
  rw [attributeOf] at hname
  split at hname
  next => cases hname
  next =>
      cases hleft : left.attribute? with
      | some n =>
          rw [hleft, Option.some_or] at hname
          rw [hleft, Option.isSome_some, if_pos rfl] at hp
          cases hname
          exact Or.inl ⟨Operand.attribute?_eq_some_iff.mp hleft, hp⟩
      | none =>
          rw [hleft, Option.none_or] at hname
          rw [hleft, Option.isSome_none, if_neg Bool.false_ne_true] at hp
          exact Or.inr ⟨hp, Operand.attribute?_eq_some_iff.mp hname⟩

/-- A part on the partition attribute is taken in exactly if it picks a partition. -/
theorem partitionValue_iff :
    attributeOf d = some a.name ∧ partitionValue a values d = .ok v ↔ d.Picks a values v := by
  constructor
  · rintro ⟨hname, h⟩
    cases d with
    | compare left op right =>
        cases op with
        | eq =>
            simp only [partitionValue, bind_eq_ok_iff, mapError_eq_ok_iff,
              KeyAttribute.check_eq_ok_iff, Except.ok.injEq] at h
            obtain ⟨v, hv, -, ⟨hkind, -⟩, rfl⟩ := h
            obtain ⟨p, hp, hbound⟩ := parameter_eq_ok_iff.mp hv
            rcases sides_of_attributeOf hname hp with ⟨rfl, rfl⟩ | ⟨rfl, rfl⟩
            · exact .right ⟨hbound, hkind⟩
            · exact .left ⟨hbound, hkind⟩
        | _ => cases h
    | _ => cases h
  · intro h
    have hvalue : ∀ {p : String}, a.Binds values p v →
        (parameter values (.param p) >>= fun v =>
          (a.check v).mapError .key >>= fun _ => .ok v) = .ok v := by
      rintro p ⟨hbound, hkind⟩
      simp only [bind_eq_ok_iff, mapError_eq_ok_iff, KeyAttribute.check_eq_ok_iff]
      exact ⟨v, parameter_eq_ok_iff.mpr ⟨p, rfl, hbound⟩, _, ⟨hkind, rfl⟩, rfl⟩
    cases h with
    | right hp => exact ⟨rfl, hvalue hp⟩
    | left hp => exact ⟨rfl, hvalue hp⟩

/-- A beginning that is asked for, without surplus arguments, is one of the sort attribute. -/
theorem restricts_of_beginsWith {args : List Operand}
    (hargs : (Condition.call .beginsWith args).trim = .call .beginsWith args)
    (hname : attributeOf (.call .beginsWith args) = some a.name)
    (h : sortCondition a values (.call .beginsWith args) = .ok r) :
    (Condition.call .beginsWith args).Restricts a values r := by
  obtain ⟨operand, j, hsecond, hj, hnumber, rfl⟩ := sortCondition_call_eq_ok_iff.mp h
  obtain ⟨p, v, rfl, hbinds, rfl⟩ := keyOf_eq_ok_iff_binds.mp hj
  obtain ⟨first, hfirst, hpath⟩ := Option.bind_eq_some_iff.mp hname
  obtain rfl := Operand.attribute?_eq_some_iff.mp hpath
  obtain rfl : args = [.path [a.name], .param p] := by
    match args, hfirst, hsecond, hargs with
    | _ :: _ :: _, hfirst, hsecond, hargs =>
        cases hfirst
        cases hsecond
        exact (Condition.call.inj hargs).2.symm
  exact .beginsWith hbinds (hbinds.ne_number_iff.mp hnumber)

/-- A part on the sort attribute is taken in exactly if it restricts the sort key. -/
theorem sortCondition_iff (hd : d.trim = d) :
    attributeOf d = some a.name ∧ sortCondition a values d = .ok r ↔ d.Restricts a values r := by
  have hkey : ∀ {p : String} {v : Value}, a.Binds values p v →
      keyOf a values (.param p) = .ok (SortKey.ofValue v) :=
    fun h => keyOf_eq_ok_iff_binds.mpr ⟨_, _, rfl, h, rfl⟩
  constructor
  · rintro ⟨hname, h⟩
    cases d with
    | compare left op right =>
        obtain ⟨j, hj, hr⟩ := sortCondition_compare_eq_ok_iff.mp h
        obtain ⟨p, v, hp, hbinds, rfl⟩ := keyOf_eq_ok_iff_binds.mp hj
        rcases sides_of_attributeOf hname hp with ⟨rfl, rfl⟩ | ⟨rfl, rfl⟩
        · exact .right hbinds (comparison_eq_ok_iff.mp hr)
        · exact .left hbinds (comparison_eq_ok_iff.mp hr)
    | between value low high =>
        obtain ⟨l, u, hl, hu, hle, rfl⟩ := sortCondition_between_eq_ok_iff.mp h
        obtain ⟨p, low, rfl, hlow, rfl⟩ := keyOf_eq_ok_iff_binds.mp hl
        obtain ⟨q, high, rfl, hhigh, rfl⟩ := keyOf_eq_ok_iff_binds.mp hu
        obtain rfl := Operand.attribute?_eq_some_iff.mp hname
        exact .between hlow hhigh hle
    | call f args =>
        cases f with
        | beginsWith => exact restricts_of_beginsWith hd hname h
        | _ => cases hname
    | _ => cases hname
  · intro h
    cases h with
    | @right p _ op _ hp hr =>
        have hname : attributeOf (.compare (.path [a.name]) op (.param p)) = some a.name := by
          cases hr <;> rfl
        exact ⟨hname, sortCondition_compare_eq_ok_iff.mpr ⟨_, hkey hp, comparison_eq_ok_iff.mpr hr⟩⟩
    | @left p _ op _ hp hr =>
        have hname : attributeOf (.compare (.param p) op (.path [a.name])) = some a.name := by
          cases op <;> cases hr <;> rfl
        exact ⟨hname, sortCondition_compare_eq_ok_iff.mpr ⟨_, hkey hp, comparison_eq_ok_iff.mpr hr⟩⟩
    | between hlow hhigh hle =>
        exact ⟨rfl, sortCondition_between_eq_ok_iff.mpr ⟨_, _, hkey hlow, hkey hhigh, hle, rfl⟩⟩
    | beginsWith hp htype =>
        exact ⟨rfl, sortCondition_call_eq_ok_iff.mpr
          ⟨_, _, rfl, hkey hp, hp.ne_number_iff.mpr htype, rfl⟩⟩

/-- Taking in a part adds what the part picks or restricts, where there was nothing yet. -/
theorem Parts.add_iff (hs : ∀ a ∈ s.sort, a.name ≠ s.partition.name) (hd : d.trim = d) :
    parts.add s values d = .ok parts' ↔
      (parts.partition = none ∧ ∃ v, d.Picks s.partition values v ∧
        parts' = { parts with partition := some v }) ∨
      ∃ a, s.sort = some a ∧ parts.sort = none ∧ ∃ r, d.Restricts a values r ∧
        parts' = { parts with sort := some r } := by
  constructor
  · intro h
    rcases add_eq_ok h with ⟨hname, hnone, v, hv, hparts⟩ | ⟨a, ha, hname, hnone, r, hr, hparts⟩
    · exact Or.inl ⟨hnone, v, partitionValue_iff.mp ⟨hname, hv⟩, hparts⟩
    · exact Or.inr ⟨a, ha, hnone, r, (sortCondition_iff hd).mp ⟨hname, hr⟩, hparts⟩
  · rintro (⟨hnone, v, hv, rfl⟩ | ⟨a, ha, hnone, r, hr, rfl⟩)
    · obtain ⟨hname, hvalue⟩ := partitionValue_iff.mpr hv
      simp only [Parts.add, hname, if_pos, hnone, hvalue]
      rfl
    · obtain ⟨hname, hcond⟩ := (sortCondition_iff hd).mpr hr
      simp only [Parts.add, hname, if_neg (hs a ha), ha, if_pos, hnone, hcond]
      rfl

/-! ## All parts -/

/-- What conditions add to the parts that have been found: nothing, one of the parts, or both. -/
inductive Parts.Adds (s : KeySchema) (values : NameMap Value) :
    Parts → List Condition → Parts → Prop
  | nothing {parts : Parts} : Adds s values parts [] parts
  | partition {o : Option SortCondition} {p : Condition} {v : Value} :
      p.Picks s.partition values v → Adds s values ⟨none, o⟩ [p] ⟨some v, o⟩
  | sort {o : Option Value} {q : Condition} {a : KeyAttribute} {r : SortCondition} :
      s.sort = some a → q.Restricts a values r → Adds s values ⟨o, none⟩ [q] ⟨o, some r⟩
  | both {ds : List Condition} {p q : Condition} {a : KeyAttribute} {v : Value}
      {r : SortCondition} : ds.Perm [p, q] → p.Picks s.partition values v → s.sort = some a →
      q.Restricts a values r → Adds s values ⟨none, none⟩ ds ⟨some v, some r⟩

theorem Parts.addAll_iff (hs : ∀ a ∈ s.sort, a.name ≠ s.partition.name)
    (hds : ∀ d ∈ ds, d.trim = d) :
    addAll s values parts ds = .ok parts' ↔ Adds s values parts ds parts' := by
  induction ds generalizing parts with
  | nil =>
      constructor
      · intro h
        cases h
        exact .nothing
      · intro h
        cases h with
        | nothing => rfl
        | both hperm => cases hperm.length_eq
  | cons d ds ih =>
      obtain ⟨hd, hrest⟩ := List.forall_mem_cons.mp hds
      have hcons : addAll s values parts (d :: ds) = .ok parts' ↔
          ∃ parts₁, parts.add s values d = .ok parts₁ ∧ Adds s values parts₁ ds parts' :=
        bind_eq_ok_iff.trans (exists_congr fun _ => and_congr_right fun _ => ih hrest)
      rw [hcons]
      constructor
      · rintro ⟨parts₁, hadd, h⟩
        obtain ⟨o, o'⟩ := parts
        rcases (add_iff hs hd).mp hadd with ⟨rfl, v, hv, rfl⟩ | ⟨a, ha, rfl, r, hr, rfl⟩
        · -- the partition is picked, so at most the restriction may follow
          cases h with
          | nothing => exact .partition hv
          | sort ha hr => exact .both (List.Perm.refl _) hv ha hr
        · cases h with
          | nothing => exact .sort ha hr
          | partition hv => exact .both (List.Perm.swap _ _ _) hv ha hr
      · intro h
        have hpicks : ∀ {o : Option SortCondition} {d : Condition} {v : Value}, d.trim = d →
            d.Picks s.partition values v → Parts.add s values ⟨none, o⟩ d = .ok ⟨some v, o⟩ :=
          fun hd hv => (add_iff hs hd).mpr (Or.inl ⟨rfl, _, hv, rfl⟩)
        have hrestricts : ∀ {o : Option Value} {d : Condition} {a : KeyAttribute}
            {r : SortCondition}, d.trim = d → s.sort = some a → d.Restricts a values r →
            Parts.add s values ⟨o, none⟩ d = .ok ⟨o, some r⟩ :=
          fun hd ha hr => (add_iff hs hd).mpr (Or.inr ⟨_, ha, rfl, _, hr, rfl⟩)
        cases h with
        | partition hv => exact ⟨_, hpicks hd hv, .nothing⟩
        | sort ha hr => exact ⟨_, hrestricts hd ha hr, .nothing⟩
        | both hperm hv ha hr =>
            rcases List.perm_pair.mp hperm with h | h <;> cases h
            · exact ⟨_, hpicks hd hv, .sort ha hr⟩
            · exact ⟨_, hrestricts hd ha hr, .partition hv⟩

theorem ofCondition_eq_ok_iff {k : KeyCondition} :
    ofCondition s values c = .ok k ↔
      Parts.addAll s values ⟨none, none⟩ c.conjuncts = .ok ⟨some k.partition, k.sort⟩ := by
  rw [ofCondition, bind_eq_ok_iff]
  constructor
  · rintro ⟨⟨p, o⟩, hparts, h⟩
    cases p with
    | none => cases h
    | some v =>
        cases h
        exact hparts
  · intro h
    exact ⟨_, h, rfl⟩

end KeyCondition

/-! ## What no key condition has -/

namespace Condition

variable {s : KeySchema} {values : NameMap Value} {a : KeyAttribute} {k : KeyCondition} {v : Value}
  {r : SortCondition} {c d : Condition}

theorem Restricts.operand (h : d.Restricts a values r) {o : Operand} (ho : o ∈ d.operands) :
    o = .path [a.name] ∨ ∃ p v, o = .param p ∧ a.Binds values p v := by
  cases h with
  | right hp | left hp | beginsWith hp =>
      simp only [operands, List.mem_cons, List.not_mem_nil, or_false] at ho
      rcases ho with rfl | rfl
      all_goals first | exact Or.inl rfl | exact Or.inr ⟨_, _, rfl, hp⟩
  | between hlow hhigh =>
      simp only [operands, List.mem_cons, List.not_mem_nil, or_false] at ho
      rcases ho with rfl | rfl | rfl
      · exact Or.inl rfl
      · exact Or.inr ⟨_, _, rfl, hlow⟩
      · exact Or.inr ⟨_, _, rfl, hhigh⟩

/-! ### All conjuncts -/

end Condition

/-- No text gives `begins_with` a third argument; where there is one, it is not looked at. -/
example :
    KeyCondition.ofCondition ⟨⟨"device", .string⟩, some ⟨"at", .string⟩⟩
      [(":d", .string "d"), (":x", .string "2024")]
      (.and (.compare (.path ["device"]) .eq (.param ":d"))
        (.call .beginsWith [.path ["at"], .param ":x", .param ":none"])) =
      .ok ⟨.string "d", some (.beginsWith (.string "2024"))⟩ := by
  decide

end ItemStore
