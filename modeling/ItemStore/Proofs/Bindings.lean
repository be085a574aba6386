import ItemStore.Proofs.RequestCriteria

/-!
# Bindings are neither lost nor mixed up

Criteria of different attributes may generate one parameter, since a parameter is named by putting
a name together: a range of `a` and an equality of `amin` both bind `:amin`.  Compiling fails
exactly if they do so with different values, and what is compiled binds what was generated, no more
and no less.  Merging the bindings of another condition looks for a conflict before it puts the
first one (`mergeInto`), and so a merge that fails has changed nothing (`run_mergeInto`).

Hence each of two conditions means the same under the merged values as under its own
(`bindings_exact`).
-/

namespace ItemStore

variable {name : String} {v w : Value} {cs : Criteria}

/-! ## What criteria generate -/

/-- A criterion generates different parameters. -/
theorem Criterion.binding_unique {c : Criterion} {param : String}
    (hv : (param, v) ∈ c.bindings name) (hw : (param, w) ∈ c.bindings name) : v = w := by
  cases c with
  | between low high =>
      have hne : ":" ++ name ++ "min" ≠ ":" ++ name ++ "max" := by
        intro heq
        have htext := congrArg String.toList heq
        simp only [String.toList_append] at htext
        exact absurd (List.append_cancel_left htext) (by decide)
      simp only [bindings, List.mem_cons, Prod.mk.injEq, List.not_mem_nil, or_false] at hv hw
      rcases hv with ⟨hv, rfl⟩ | ⟨hv, rfl⟩ <;> rcases hw with ⟨hw, rfl⟩ | ⟨hw, rfl⟩
      · rfl
      · exact absurd (hv.symm.trans hw) hne
      · exact absurd (hw.symm.trans hv) hne
      · rfl
  | _ =>
      simp only [bindings, List.mem_singleton, Prod.mk.injEq] at hv hw
      rw [hv.2, hw.2]

namespace Criteria

/-- One of the criteria generates the parameter with the value. -/
def Generates (cs : Criteria) (param : String) (v : Value) : Prop :=
  ∃ e ∈ cs.entries, (param, v) ∈ e.2.bindings e.1

/-- Two of the criteria generate the parameter with different values. -/
def Clashes (cs : Criteria) (param : String) : Prop :=
  ∃ d ∈ cs.entries, ∃ e ∈ cs.entries, d ≠ e ∧
    ∃ v w, (param, v) ∈ d.2.bindings d.1 ∧ (param, w) ∈ e.2.bindings e.1 ∧ v ≠ w

theorem mem_bindings_iff : (name, v) ∈ cs.bindings ↔ cs.Generates name v := List.mem_flatMap

theorem clashes_iff :
    cs.Clashes name ↔ ∃ v w, cs.Generates name v ∧ cs.Generates name w ∧ v ≠ w := by
  constructor
  · rintro ⟨d, hd, e, he, -, v, w, hv, hw, hne⟩
    exact ⟨v, w, ⟨d, hd, hv⟩, ⟨e, he, hw⟩, hne⟩
  · rintro ⟨v, w, ⟨d, hd, hv⟩, ⟨e, he, hw⟩, hne⟩
    refine ⟨d, hd, e, he, ?_, v, w, hv, hw, hne⟩
    rintro rfl
    exact hne (Criterion.binding_unique hv hw)

/-- No parameter of the criteria stands for two different values. -/
def Unambiguous (cs : Criteria) : Prop :=
  ∀ b ∈ cs.bindings, ∀ b' ∈ cs.bindings, b.1 = b'.1 → b.2 = b'.2

instance (cs : Criteria) : Decidable cs.Unambiguous :=
  inferInstanceAs (Decidable (∀ b ∈ cs.bindings, ∀ b' ∈ cs.bindings, b.1 = b'.1 → b.2 = b'.2))

theorem not_unambiguous_iff : ¬ cs.Unambiguous ↔ ∃ name, cs.Clashes name := by
  constructor
  · intro h
    simp only [Unambiguous, not_forall] at h
    obtain ⟨⟨name, v⟩, hv, ⟨_, w⟩, hw, rfl, hne⟩ := h
    exact ⟨name, clashes_iff.mpr ⟨v, w, mem_bindings_iff.mp hv, mem_bindings_iff.mp hw, hne⟩⟩
  · rintro ⟨name, h⟩ hvalues
    obtain ⟨v, w, hv, hw, hne⟩ := clashes_iff.mp h
    exact hne (hvalues _ (mem_bindings_iff.mpr hv) _ (mem_bindings_iff.mpr hw) rfl)

end Criteria

/-! ## Compiling -/

namespace BoundCondition

/-- Only values that were given are bound. -/
theorem mem_bind {m m' : NameMap Value} {d b : String × Value} (h : bind m d = .ok m')
    (hb : b ∈ m') : b ∈ m ∨ b = d := by
  rw [bind] at h
  split at h
  next =>
      cases h
      exact (NameMap.mem_set hb).symm
  next =>
      split at h
      next =>
          cases h
          exact Or.inl hb
      next => cases h

theorem mem_bindAll {m m' : NameMap Value} {bs : List (String × Value)}
    (h : bindAll m bs = .ok m') {b : String × Value} (hb : b ∈ m') : b ∈ m ∨ b ∈ bs := by
  induction bs generalizing m with
  | nil =>
      cases h
      exact Or.inl hb
  | cons d bs ih =>
      obtain ⟨m₁, hbind, hrest⟩ := bind_eq_ok_iff.mp h
      rcases ih hrest with hm | hbs
      · exact (mem_bind hbind hm).imp_right fun (hd : b = d) => hd ▸ List.mem_cons_self
      · exact Or.inr (List.mem_cons_of_mem _ hbs)

/-- Parameters that are never bound to different values can all be bound. -/
theorem exists_bindAll {m : NameMap Value} {bs : List (String × Value)}
    (hm : ∀ b ∈ bs, ∀ v, NameMap.get? m b.1 = some v → v = b.2)
    (hbs : ∀ b ∈ bs, ∀ b' ∈ bs, b.1 = b'.1 → b.2 = b'.2) : ∃ m', bindAll m bs = .ok m' := by
  induction bs generalizing m with
  | nil => exact ⟨m, rfl⟩
  | cons b bs ih =>
      have hrest : ∀ d ∈ bs, ∀ d' ∈ bs, d.1 = d'.1 → d.2 = d'.2 := fun d hd d' hd' =>
        hbs d (List.mem_cons_of_mem _ hd) d' (List.mem_cons_of_mem _ hd')
      obtain ⟨m₁, hbind, hm₁⟩ : ∃ m₁, bind m b = .ok m₁ ∧
          ∀ d ∈ bs, ∀ v, NameMap.get? m₁ d.1 = some v → v = d.2 := by
        rw [bind]
        cases hb : NameMap.get? m b.1 with
        | none =>
            refine ⟨_, rfl, ?_⟩
            intro d hd v hv
            rw [NameMap.get?_set] at hv
            split at hv
            next hname =>
                cases hv
                exact hbs b List.mem_cons_self d (List.mem_cons_of_mem _ hd) hname.symm
            next => exact hm d (List.mem_cons_of_mem _ hd) v hv
        | some v =>
            refine ⟨m, if_pos (hm b List.mem_cons_self v hb), ?_⟩
            exact fun d hd => hm d (List.mem_cons_of_mem _ hd)
      obtain ⟨m', hm'⟩ := ih hm₁ hrest
      exact ⟨m', bind_eq_ok_iff.mpr ⟨m₁, hbind, hm'⟩⟩

/-- The parameter that is reported is given with a value other than one that it has. -/
theorem bindAll_eq_error {m : NameMap Value} {bs : List (String × Value)} {e : CompileError}
    (h : bindAll m bs = .error e) :
    ∃ b ∈ bs, e = .conflictingBinding b.1 ∧ ∃ v, ((b.1, v) ∈ m ∨ (b.1, v) ∈ bs) ∧ v ≠ b.2 := by
  induction bs generalizing m with
  | nil => cases h
  | cons d bs ih =>
      rcases bind_eq_error_iff.mp h with hbind | ⟨m₁, hbind, hrest⟩
      · rw [bind] at hbind
        split at hbind
        next => cases hbind
        next v hv =>
            split at hbind
            next => cases hbind
            next hne =>
                cases hbind
                exact ⟨d, List.mem_cons_self, rfl, v, Or.inl (NameMap.mem_of_get? hv), hne⟩
      · obtain ⟨b, hb, he, v, hv, hne⟩ := ih hrest
        refine ⟨b, List.mem_cons_of_mem _ hb, he, v, ?_, hne⟩
        rcases hv with hv | hv
        · exact (mem_bind hbind hv).imp_right fun (hd : (b.1, v) = d) => hd ▸ List.mem_cons_self
        · exact Or.inr (List.mem_cons_of_mem _ hv)

end BoundCondition

namespace Criteria

theorem exists_compile_iff :
    (∃ bound, cs.compile = .ok bound) ↔ cs.Unambiguous := by
  constructor
  · rintro ⟨bound, h⟩ b hb b' hb' hname
    have hvalues := (compile_eq_ok h).2
    have hsame := (hvalues b hb).symm.trans (hname ▸ hvalues b' hb')
    exact Option.some.inj hsame
  · intro h
    obtain ⟨values, hvalues⟩ := BoundCondition.exists_bindAll (m := []) nofun h
    exact ⟨⟨cs.text, values⟩, bind_eq_ok_iff.mpr ⟨values, hvalues, rfl⟩⟩

theorem exists_compile_error_iff :
    (∃ e, cs.compile = .error e) ↔ ∃ name, cs.Clashes name := by
  rw [← not_unambiguous_iff, ← exists_compile_iff]
  cases cs.compile <;> simp

theorem compile_eq_error {e : CompileError} (h : cs.compile = .error e) :
    ∃ name, cs.Clashes name ∧ e = .conflictingBinding name := by
  rcases bind_eq_error_iff.mp h with h | ⟨values, -, h⟩
  · obtain ⟨⟨name, w⟩, hw, rfl, v, hv, hne⟩ := BoundCondition.bindAll_eq_error h
    have hv := hv.resolve_left List.not_mem_nil
    exact ⟨name, clashes_iff.mpr ⟨v, w, mem_bindings_iff.mp hv, mem_bindings_iff.mp hw, hne⟩, rfl⟩
  · cases h

/-- What is compiled binds what the criteria generate. -/
theorem get?_compile_iff {bound : BoundCondition} (h : cs.compile = .ok bound) :
    NameMap.get? bound.values name = some v ↔ cs.Generates name v := by
  rw [← mem_bindings_iff]
  constructor
  · intro hv
    obtain ⟨values, hvalues, hbound⟩ := bind_eq_ok_iff.mp h
    cases hbound
    have hmem := BoundCondition.mem_bindAll hvalues (NameMap.mem_of_get? hv)
    exact hmem.resolve_left List.not_mem_nil
  · exact (compile_eq_ok h).2 (name, v)

end Criteria

/-! ## Merging -/

namespace BoundCondition

variable {base other : BoundCondition}

/-- Both conditions bind the parameter, to different values. -/
def Conflicts (base other : BoundCondition) (param : String) : Prop :=
  ∃ v w, NameMap.get? base.values param = some v ∧ NameMap.get? other.values param = some w ∧ v ≠ w

/-- Put all entries of a map into the values at hand, one after the other. -/
def putAll (es : NameMap Value) : EStateM CompileError BoundCondition Unit :=
  es.forM fun b => modify fun c => { c with values := NameMap.set c.values b.1 b.2 }

/-- Add the values of another condition to those at hand, unless one of them conflicts. -/
def mergeInto (other : BoundCondition) : EStateM CompileError BoundCondition Unit := do
  let base ← get
  match conflict? base.values other.values with
  | .some name => throw (.conflictingBinding name)
  | .none => putAll other.values

theorem run_putAll (es : NameMap Value) (c : BoundCondition) :
    (putAll es).run c = .ok () { c with values := NameMap.union c.values es } := by
  induction es generalizing c with
  | nil => rfl
  | cons e es ih => exact ih { c with values := NameMap.set c.values e.1 e.2 }

/-- A merge in place ends with the merged condition, or with the condition that it began with. -/
theorem run_mergeInto (base other : BoundCondition) :
    (mergeInto other).run base =
      match base.mergeValues other with
      | .ok merged => .ok () merged
      | .error e => .error e base := by
  have hget : (mergeInto other).run base =
      EStateM.run (match conflict? base.values other.values with
        | .some name => throw (CompileError.conflictingBinding name)
        | .none => putAll other.values) base := rfl
  rw [hget, mergeValues]
  cases conflict? base.values other.values with
  | none => exact run_putAll other.values base
  | some name => rfl

theorem conflict?_eq_some (hother : NameMap.Ascending other.values)
    (h : conflict? base.values other.values = some name) : base.Conflicts other name := by
  obtain ⟨⟨param, w⟩, hfind, rfl⟩ := Option.map_eq_some_iff.mp h
  have hw := hother.get?_of_mem (List.mem_of_find?_eq_some hfind)
  have hdiffers := List.find?_some hfind
  cases hv : NameMap.get? base.values param with
  | none => simp [hv] at hdiffers
  | some v => exact ⟨v, w, hv, hw, by simpa [hv] using hdiffers⟩

theorem mergeValues_eq_error {e : CompileError} (hother : NameMap.Ascending other.values)
    (h : base.mergeValues other = .error e) :
    ∃ name, base.Conflicts other name ∧ e = .conflictingBinding name := by
  rw [mergeValues] at h
  split at h
  next name hname =>
      cases h
      exact ⟨name, conflict?_eq_some hother hname, rfl⟩
  next => cases h

theorem exists_mergeValues_error_iff (hother : NameMap.Ascending other.values) :
    (∃ e, base.mergeValues other = .error e) ↔ ∃ name, base.Conflicts other name := by
  constructor
  · rintro ⟨e, h⟩
    obtain ⟨name, hname, -⟩ := mergeValues_eq_error hother h
    exact ⟨name, hname⟩
  · rintro ⟨name, v, w, hv, hw, hne⟩
    cases hmerge : base.mergeValues other with
    | error e => exact ⟨e, rfl⟩
    | ok merged =>
        obtain ⟨-, hleft, hright⟩ := mergeValues_eq_ok hother hmerge
        have hsame := (hleft name v hv).symm.trans (hright name w hw)
        exact absurd (Option.some.inj hsame) hne

/-- Merged values are what either condition binds. -/
theorem get?_mergeValues_iff {merged : BoundCondition} (hother : NameMap.Ascending other.values)
    (h : base.mergeValues other = .ok merged) :
    NameMap.get? merged.values name = some v ↔
      NameMap.get? base.values name = some v ∨ NameMap.get? other.values name = some v := by
  obtain ⟨-, hleft, hright⟩ := mergeValues_eq_ok hother h
  refine ⟨?_, fun hv => hv.elim (hleft name v) (hright name v)⟩
  intro hv
  rw [mergeValues] at h
  split at h
  next => cases h
  next =>
      cases h
      rw [hother.get?_union] at hv
      cases hw : NameMap.get? other.values name with
      | none => exact Or.inl (by simpa [hw] using hv)
      | some w => exact Or.inr (by simpa [hw] using hv)

theorem run_mergeInto_eq_error_iff {c : BoundCondition} {e : CompileError} :
    (mergeInto other).run base = .error e c ↔ base.mergeValues other = .error e ∧ c = base := by
  rw [run_mergeInto]
  cases base.mergeValues other <;> simp [eq_comm]

theorem run_mergeInto_eq_ok_iff {c : BoundCondition} :
    (mergeInto other).run base = .ok () c ↔ base.mergeValues other = .ok c := by
  rw [run_mergeInto]
  cases base.mergeValues other <;> simp

end BoundCondition

/-! ## Evaluating under merged values -/

/-- What criteria of words were compiled to is true of the same items under all values that have
theirs. -/
theorem Criteria.eval_congr {bound : BoundCondition} {values : NameMap Value} (hnames : cs.Named)
    (hne : cs.entries ≠ []) (h : cs.compile = .ok bound)
    (hvalues : ∀ name v, NameMap.get? bound.values name = some v →
      NameMap.get? values name = some v) :
    ∃ c, Condition.ofText bound.text = .ok c ∧
      ∀ item, c.eval item values = c.eval item bound.values := by
  obtain ⟨htext, hbound⟩ := compile_eq_ok h
  obtain ⟨c, hc, -, heval⟩ := ofText_text_sound hne hnames
  refine ⟨c, htext ▸ hc, fun item => ?_⟩
  rw [heval bound.values hbound, heval values fun b hb => hvalues _ _ (hbound b hb)]

namespace BoundCondition

/-- Bindings are never lost, mixed up or merged in part.

Compiling criteria, of any names and in any order, fails exactly if two of them generate one
parameter with different values; the failure names such a parameter, and what is compiled binds
exactly what was generated.  Merging fails exactly if some parameter is bound on both sides to
different values; it then leaves the condition as it was, and otherwise the text, and the values
become those of either side.  Hence, if the criteria of a key and those of a filter compile and
merge, then each of the two conditions gives, for every item, the same result under the merged
values as under its own. -/
theorem bindings_exact :
    (∀ cs : Criteria,
      ((∃ e, cs.compile = .error e) ↔ ∃ name, cs.Clashes name) ∧
      (∀ e, cs.compile = .error e → ∃ name, cs.Clashes name ∧ e = .conflictingBinding name) ∧
      ∀ bound, cs.compile = .ok bound →
        ∀ name v, NameMap.get? bound.values name = some v ↔ cs.Generates name v) ∧
    (∀ base other : BoundCondition, NameMap.Ascending other.values →
      ((∃ e c, (mergeInto other).run base = .error e c) ↔ ∃ name, base.Conflicts other name) ∧
      (∀ e c, (mergeInto other).run base = .error e c →
        c = base ∧ ∃ name, base.Conflicts other name ∧ e = .conflictingBinding name) ∧
      ∀ c, (mergeInto other).run base = .ok () c →
        c.text = base.text ∧ ∀ name v, NameMap.get? c.values name = some v ↔
          NameMap.get? base.values name = some v ∨ NameMap.get? other.values name = some v) ∧
    (∀ key filter : Criteria, key.Named → filter.Named →
      ∀ k f merged, key.compile = .ok k → filter.compile = .ok f →
        (mergeInto f).run k = .ok () merged →
        (key.entries ≠ [] → ∃ c, Condition.ofText k.text = .ok c ∧
          ∀ item, c.eval item merged.values = c.eval item k.values) ∧
        (filter.entries ≠ [] → ∃ c, Condition.ofText f.text = .ok c ∧
          ∀ item, c.eval item merged.values = c.eval item f.values)) := by
  refine ⟨?compile, ?merge, ?meaning⟩
  case compile =>
    exact fun cs => ⟨Criteria.exists_compile_error_iff, fun _ => Criteria.compile_eq_error,
      fun _ h _ _ => Criteria.get?_compile_iff h⟩
  case merge =>
    intro base other hother
    simp only [run_mergeInto_eq_error_iff, run_mergeInto_eq_ok_iff]
    refine ⟨?_, ?_, fun c hc => ⟨(mergeValues_eq_ok hother hc).1, fun _ _ =>
      get?_mergeValues_iff hother hc⟩⟩
    · simpa using exists_mergeValues_error_iff hother
    · rintro e c ⟨he, rfl⟩
      exact ⟨rfl, mergeValues_eq_error hother he⟩
  case meaning =>
    intro key filter hkey hfilter k f merged hk hf hmerge
    rw [run_mergeInto_eq_ok_iff] at hmerge
    obtain ⟨-, hleft, hright⟩ := mergeValues_eq_ok (Criteria.ascending_compile hf) hmerge
    exact ⟨fun hne => Criteria.eval_congr hkey hne hk hleft,
      fun hne => Criteria.eval_congr hfilter hne hf hright⟩

/-- The range of the key and the filter share the parameter `:atmin`.  Another value for the other
bound is refused as a whole, with the new parameter that comes before it. -/
theorem bindings_exact_shared :
    let key := Criteria.ofEntries
      [("pk", .equals (.string "p")), ("at", .between (.number "1") (.number "5"))]
    let filter := Criteria.ofEntries [("atmin", .compare .ge (.number "1"))]
    let k : BoundCondition := ⟨"pk = :pk and at between :atmin and :atmax",
      [(":atmax", .number "5"), (":atmin", .number "1"), (":pk", .string "p")]⟩
    let f : BoundCondition := ⟨"atmin >= :atmin", [(":atmin", .number "1")]⟩
    let other : BoundCondition := ⟨"", [(":a", .bool true), (":atmax", .number "7")]⟩
    key.compile = .ok k ∧ filter.compile = .ok f ∧ (mergeInto f).run k = .ok () k ∧
      (∃ c, Condition.ofText f.text = .ok c ∧ ∀ item, c.eval item k.values = c.eval item f.values) ∧
      ∃ e, (mergeInto other).run k = .error e k := by
  intro key filter k f other
  have hk : key.compile = .ok k := by decide +kernel
  have hf : filter.compile = .ok f := by decide +kernel
  have hmerge : (mergeInto f).run k = .ok () k := run_mergeInto_eq_ok_iff.mpr (by decide +kernel)
  have hother : NameMap.Ascending other.values := by
    simp only [NameMap.Ascending, OrderedMap.Ascending, other, List.pairwise_pair]
    decide
  obtain ⟨-, hmerges, hmeaning⟩ := bindings_exact
  obtain ⟨-, hfilter⟩ := hmeaning key filter (by decide) (by decide) k f k hk hf hmerge
  obtain ⟨hfails, hkept, -⟩ := hmerges k other hother
  obtain ⟨e, c, herror⟩ := hfails.mpr ⟨":atmax", .number "5", .number "7", by decide +kernel⟩
  obtain rfl := (hkept e c herror).1
  exact ⟨hk, hf, hmerge, hfilter (by decide +kernel), e, herror⟩

end BoundCondition

end ItemStore
