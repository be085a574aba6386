import ItemStore.Proofs.CriteriaText
import ItemStore.Proofs.Evaluation
import ItemStore.Proofs.OrderedMap
import ItemStore.Proofs.Result
import Mathlib.Data.List.Induction
import Mathlib.Data.List.Nodup

/-!
# What compiled criteria mean

A criterion holds of an item that has the attribute with a value as the criterion asks,
`Criterion.holds`.  Criteria that are compiled are read back as a condition with one part for
each criterion, and evaluating it with the compiled values tells whether all criteria hold
(`Criteria.ofText_text_sound`).  That the parameters of different criteria may coincide is no
obstacle: compiling succeeds only if they then stand for the same value (`bindAll_sound`).

Criteria that were set one after the other hold the last criterion of each name, in the order in
which the names came first (`Criteria.entries_ofEntries`).
-/

namespace ItemStore

/-- Whether a value is as the criterion asks. -/
def Criterion.admits : Criterion → Value → Bool
  | equals w, v => Value.test .eq v w
  | compare op w, v => Value.test op.comparator v w
  | beginsWith w, v => v.beginsWith w
  | between low high, v => Value.test .ge v low && Value.test .le v high

/-- Whether the item has the attribute with a value as the criterion asks. -/
def Criterion.holds (name : String) (c : Criterion) (item : Item) : Bool :=
  (NameMap.get? item name).any c.admits

/-- Whether an item satisfies all criteria. -/
def Criteria.hold (entries : List (String × Criterion)) (item : Item) : Bool :=
  entries.all fun e => e.2.holds e.1 item

variable {item : Item} {values : NameMap Value} {name : String}

/-! ## Parameters -/

theorem BoundCondition.bind_sound {m m' : NameMap Value} {b : String × Value}
    (h : bind m b = .ok m') :
    NameMap.get? m' b.1 = some b.2 ∧
      ∀ n v, NameMap.get? m n = some v → NameMap.get? m' n = some v := by
  unfold bind at h
  split at h
  next hnone =>
      cases h
      refine ⟨NameMap.get?_set_self m b.1 b.2, ?_⟩
      intro n v hv
      have hne : n ≠ b.1 := by
        rintro rfl
        rw [hnone] at hv
        cases hv
      rw [NameMap.get?_set, if_neg hne, hv]
  next v hv =>
      split at h
      next heq =>
          cases h
          exact ⟨heq ▸ hv, fun _ _ h => h⟩
      next => cases h

/-- Compiled values give every parameter the value that it was bound with. -/
theorem BoundCondition.bindAll_sound {m m' : NameMap Value} {bs : List (String × Value)}
    (h : bindAll m bs = .ok m') :
    (∀ b ∈ bs, NameMap.get? m' b.1 = some b.2) ∧
      ∀ n v, NameMap.get? m n = some v → NameMap.get? m' n = some v := by
  induction bs generalizing m with
  | nil =>
      cases h
      exact ⟨fun b hb => (List.not_mem_nil hb).elim, fun _ _ h => h⟩
  | cons b bs ih =>
      obtain ⟨m₁, hbind, hrest⟩ := bind_eq_ok_iff.mp h
      obtain ⟨hb, hkeep⟩ := bind_sound hbind
      obtain ⟨hbs, hkeep'⟩ := ih hrest
      refine ⟨?_, fun n v hv => hkeep' n v (hkeep n v hv)⟩
      intro b' hb'
      rcases List.mem_cons.mp hb' with rfl | hb'
      · exact hkeep' _ _ hb
      · exact hbs b' hb'

/-! ## One criterion -/

/-- The condition of a criterion is true of the items of which the criterion holds. -/
theorem Criterion.eval_condition (c : Criterion)
    (h : ∀ b ∈ c.bindings name, NameMap.get? values b.1 = some b.2) :
    (c.condition name).eval item values = .ok (c.holds name item) := by
  have hcompare : ∀ (op : Comparator) (w : Value),
      NameMap.get? values (":" ++ name) = some w →
      (Condition.compare (.path [name]) op (.param (":" ++ name))).eval item values =
        .ok ((NameMap.get? item name).any fun v => Value.test op v w) := by
    intro op w hw
    rw [Condition.eval, Operand.resolve_path, Operand.resolve_param hw]
    cases NameMap.get? item name <;> rfl
  cases c with
  | equals w => exact hcompare .eq w (h _ List.mem_cons_self)
  | compare op w => exact hcompare op.comparator w (h _ List.mem_cons_self)
  | beginsWith w =>
      have hw := h _ List.mem_cons_self
      exact Function.eval_beginsWith rfl rfl (Operand.resolve_param hw)
  | between low high =>
      have hlow : NameMap.get? values (":" ++ (name ++ "min")) = some low := by
        rw [← String.append_assoc]
        exact h _ List.mem_cons_self
      have hhigh : NameMap.get? values (":" ++ (name ++ "max")) = some high := by
        rw [← String.append_assoc]
        exact h _ (List.mem_cons_of_mem _ List.mem_cons_self)
      rw [condition, Condition.eval, Operand.resolve_path, Operand.resolve_param hlow,
        Operand.resolve_param hhigh, holds]
      cases NameMap.get? item name <;> rfl

theorem Criterion.conjuncts_condition (c : Criterion) (name : String) :
    (c.condition name).conjuncts = [c.condition name] := by
  cases c <;> rfl

namespace Criteria

variable {es : List (String × Criterion)}

/-! ## All criteria -/

theorem conjuncts_joined (c : Condition) (es : List (String × Criterion)) :
    (joined c es).conjuncts = c.conjuncts ++ es.map fun e => e.2.condition e.1 := by
  induction es generalizing c with
  | nil => simp [joined]
  | cons e es ih =>
      show (joined (.and c (e.2.condition e.1)) es).conjuncts = _
      rw [ih, Condition.conjuncts, Criterion.conjuncts_condition, List.map_cons, List.append_assoc]
      rfl

theorem eval_joined {c : Condition} {b : Bool} (hc : c.eval item values = .ok b)
    (h : ∀ e ∈ es, (e.2.condition e.1).eval item values = .ok (e.2.holds e.1 item)) :
    (joined c es).eval item values = .ok (b && hold es item) := by
  induction es generalizing c b with
  | nil =>
      rw [hold, List.all_nil, Bool.and_true]
      exact hc
  | cons e es ih =>
      have hand : (Condition.and c (e.2.condition e.1)).eval item values =
          .ok (b && e.2.holds e.1 item) := by
        rw [Condition.eval, hc]
        cases b with
        | true => exact h e List.mem_cons_self
        | false => rfl
      have hrest := ih hand fun d hd => h d (List.mem_cons_of_mem _ hd)
      rw [hold, List.all_cons, ← Bool.and_assoc]
      exact hrest

theorem compile_eq_ok {cs : Criteria} {bound : BoundCondition} (h : cs.compile = .ok bound) :
    bound.text = cs.text ∧ ∀ b ∈ cs.bindings, NameMap.get? bound.values b.1 = some b.2 := by
  obtain ⟨values, hvalues, h⟩ := bind_eq_ok_iff.mp h
  cases h
  exact ⟨rfl, (BoundCondition.bindAll_sound hvalues).1⟩

/-- The text of criteria is read back as a condition with one part for each criterion, which is
true, under any values that give each parameter its own, if all criteria hold. -/
theorem ofText_text_sound {cs : Criteria} (hne : cs.entries ≠ [])
    (hnames : ∀ e ∈ cs.entries, Token.Identifier e.1) :
    ∃ c, Condition.ofText cs.text = .ok c ∧
      c.conjuncts = cs.entries.map (fun e => e.2.condition e.1) ∧
      ∀ values, (∀ b ∈ cs.bindings, NameMap.get? values b.1 = some b.2) →
        ∀ item, c.eval item values = .ok (hold cs.entries item) := by
  obtain ⟨entries⟩ := cs
  cases entries with
  | nil => exact absurd rfl hne
  | cons e es =>
      refine ⟨joined (e.2.condition e.1) es, ofText_text hnames, ?_, ?_⟩
      · rw [conjuncts_joined, Criterion.conjuncts_condition]
        rfl
      · intro values hvalues item
        have heval : ∀ d ∈ e :: es,
            (d.2.condition d.1).eval item values = .ok (d.2.holds d.1 item) := fun d hd =>
          d.2.eval_condition fun b hb => hvalues b (List.mem_flatMap.mpr ⟨d, hd, hb⟩)
        rw [eval_joined (heval e List.mem_cons_self) fun d hd =>
          heval d (List.mem_cons_of_mem _ hd)]
        rfl

/-! ## Criteria that were set one after the other -/

/-- The last criterion that was set for each name, in the order in which the names came first. -/
def lastSet (calls : List (String × Criterion)) : List (String × Criterion) :=
  (calls.map (·.1)).eraseDups.filterMap fun name => calls.reverse.find? fun e => e.1 == name

theorem names_setEntry (name : String) (c : Criterion) (es : List (String × Criterion)) :
    (setEntry name c es).map (·.1) =
      if name ∈ es.map (·.1) then es.map (·.1) else es.map (·.1) ++ [name] := by
  induction es with
  | nil => rfl
  | cons e es ih =>
      simp only [setEntry]
      by_cases he : e.1 = name
      · simp [he]
      · rw [if_neg he, List.map_cons, ih, List.map_cons]
        by_cases hmem : name ∈ es.map (·.1)
        · rw [if_pos hmem, if_pos (List.mem_cons_of_mem _ hmem)]
        · rw [if_neg hmem, if_neg fun h => (List.mem_cons.mp h).elim (fun h => he h.symm) hmem]
          rfl

theorem find?_setEntry (name : String) (c : Criterion) (es : List (String × Criterion))
    (other : String) :
    (setEntry name c es).find? (fun e => e.1 == other) =
      if name = other then some (name, c) else es.find? fun e => e.1 == other := by
  induction es with
  | nil => by_cases h : name = other <;> simp [setEntry, h]
  | cons e es ih =>
      obtain ⟨n, d⟩ := e
      simp only [setEntry]
      by_cases he : n = name
      · by_cases h : name = other <;> simp [he, h]
      · rw [if_neg he]
        by_cases ho : n = other
        · have hne : name ≠ other := fun h => he (ho.trans h.symm)
          simp [ho, hne]
        · simp [ho, ih]

theorem ofEntries_concat (calls : List (String × Criterion)) (e : String × Criterion) :
    (ofEntries (calls ++ [e])).entries = setEntry e.1 e.2 (ofEntries calls).entries := by
  simp [ofEntries, set]

theorem names_ofEntries (calls : List (String × Criterion)) :
    (ofEntries calls).entries.map (·.1) = (calls.map (·.1)).eraseDups := by
  induction calls using List.reverseRecOn with
  | nil => rfl
  | append_singleton calls e ih =>
      rw [ofEntries_concat, names_setEntry, ih, List.map_append, List.eraseDups_append]
      simp only [List.mem_eraseDups]
      split
      next hmem => simp [List.removeAll, hmem]
      next hmem => simp [List.removeAll, hmem, List.eraseDups_cons]

theorem find?_ofEntries (calls : List (String × Criterion)) (name : String) :
    (ofEntries calls).entries.find? (fun e => e.1 == name) =
      calls.reverse.find? fun e => e.1 == name := by
  induction calls using List.reverseRecOn with
  | nil => rfl
  | append_singleton calls e ih =>
      obtain ⟨n, c⟩ := e
      rw [ofEntries_concat, find?_setEntry, ih, List.reverse_append, List.reverse_singleton,
        List.singleton_append]
      by_cases he : n = name
      · rw [if_pos he, List.find?_cons_of_pos (by simpa using he)]
      · rw [if_neg he, List.find?_cons_of_neg (by simpa using he)]

theorem nodup_ofEntries (calls : List (String × Criterion)) :
    ((ofEntries calls).entries.map (·.1)).Nodup := by
  induction calls using List.reverseRecOn with
  | nil => exact List.nodup_nil
  | append_singleton calls e ih =>
      rw [ofEntries_concat, names_setEntry]
      split
      · exact ih
      next hmem =>
          refine List.nodup_append.mpr ⟨ih, List.nodup_singleton _, ?_⟩
          rintro a ha b hb rfl
          exact hmem (List.mem_singleton.mp hb ▸ ha)

theorem find?_of_mem {e : String × Criterion} (h : (es.map (·.1)).Nodup) (he : e ∈ es) :
    (es.find? fun d => d.1 == e.1) = some e := by
  induction es with
  | nil => cases he
  | cons d es ih =>
      obtain ⟨hhead, htail⟩ := List.nodup_cons.mp h
      rcases List.mem_cons.mp he with rfl | he
      · exact List.find?_cons_of_pos (beq_self_eq_true e.1)
      · have hne : d.1 ≠ e.1 := fun heq => hhead (List.mem_map.mpr ⟨e, he, heq.symm⟩)
        rw [List.find?_cons_of_neg (by simpa using hne), ih htail he]

/-- Entries with different names are what is found under their names. -/
theorem eq_filterMap_find? (h : (es.map (·.1)).Nodup) :
    es = (es.map (·.1)).filterMap fun name => es.find? fun e => e.1 == name := by
  rw [List.filterMap_map]
  have hfind : ∀ e ∈ es, ((fun name => es.find? fun d => d.1 == name) ∘ (·.1)) e = some e :=
    fun e he => find?_of_mem h he
  rw [List.filterMap_congr hfind, List.filterMap_some]

/-- Criteria hold what was set last for each name. -/
theorem entries_ofEntries (calls : List (String × Criterion)) :
    (ofEntries calls).entries = lastSet calls := by
  rw [eq_filterMap_find? (nodup_ofEntries calls), names_ofEntries, lastSet]
  exact List.filterMap_congr fun name _ => find?_ofEntries calls name

/-- What compiling writes down means what was asked.  For all criteria that were set one after the
other, of attributes whose names are words and no keywords, the compiled text is read as a
condition whose parts are those of the last criterion of each name, in the order in which the names
came first; and with the compiled values it is, for every item, true if all these criteria hold of
the item and false if not, and never fails. -/
theorem compile_means_criteria (calls : List (String × Criterion)) (bound : BoundCondition)
    (hne : calls ≠ []) (hnames : ∀ e ∈ calls, Token.Identifier e.1)
    (h : (ofEntries calls).compile = .ok bound) :
    ∃ c, Condition.ofText bound.text = .ok c ∧
      c.conjuncts = (lastSet calls).map (fun e => e.2.condition e.1) ∧
      ∀ item, c.eval item bound.values = .ok ((lastSet calls).all fun e => e.2.holds e.1 item) := by
  have hentries : ∀ e ∈ (ofEntries calls).entries, Token.Identifier e.1 := by
    intro e he
    have hname : e.1 ∈ (calls.map (·.1)).eraseDups := by
      rw [← names_ofEntries]
      exact List.mem_map_of_mem he
    obtain ⟨d, hd, hde⟩ := List.mem_map.mp (List.mem_eraseDups.mp hname)
    exact hde ▸ hnames d hd
  have hnonempty : (ofEntries calls).entries ≠ [] := by
    intro hnil
    have hnames := names_ofEntries calls
    rw [hnil, List.map_nil] at hnames
    cases calls with
    | nil => exact hne rfl
    | cons e calls =>
        rw [List.map_cons, List.eraseDups_cons] at hnames
        cases hnames
  obtain ⟨htext, hvalues⟩ := compile_eq_ok h
  obtain ⟨c, hc, hconjuncts, heval⟩ := ofText_text_sound hnonempty hentries
  rw [entries_ofEntries] at hconjuncts
  refine ⟨c, by rw [htext, hc], hconjuncts, ?_⟩
  intro item
  rw [heval bound.values hvalues item, entries_ofEntries]
  rfl

/-- The lower bound of the range and the equality share the parameter `:amin`. -/
theorem compile_means_criteria_shared :
    ∃ bound, (ofEntries [("amin", .equals (.number "7")),
        ("a", .between (.number "1") (.number "3")), ("amin", .equals (.number "1"))]).compile =
          .ok bound ∧
      ∃ c, Condition.ofText bound.text = .ok c ∧
        c.eval [("a", .number "2"), ("amin", .number "1.0")] bound.values = .ok true := by
  have hcompile : (ofEntries [("amin", .equals (.number "7")),
      ("a", .between (.number "1") (.number "3")), ("amin", .equals (.number "1"))]).compile =
      .ok ⟨"amin = :amin and a between :amin and :amax",
        [(":amax", .number "3"), (":amin", .number "1")]⟩ := by decide +kernel
  refine ⟨_, hcompile, ?_⟩
  obtain ⟨c, hc, -, heval⟩ :=
    compile_means_criteria _ _ (List.cons_ne_nil _ _) (by decide) hcompile
  refine ⟨c, hc, (heval _).trans ?_⟩
  decide +kernel

end Criteria

end ItemStore
