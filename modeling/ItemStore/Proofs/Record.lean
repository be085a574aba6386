import ItemStore.Proofs.Result
import ItemStore.Request.Wire
import Mathlib.Data.List.Nodup

/-!
# Records that are read back

A record is written slot by slot, a slot being a declared field together with the member that is
written for it, if any.  `Slot.Restores` says that the reader of the field gives back what the
member was written for, and that a member is left out wherever the field may be; what a record
with such slots is read as (`Layout.required`, `Layout.nullable`, `Layout.defaulted`) then depends
on one slot at a time, since the names of the fields are distinct.
-/

namespace ItemStore

open Decode (Field Members)

/-! ## Containers -/

namespace Decoder

variable {α : Type} {d : Decoder α} {f : α → Json}

theorem elements_map {xs : List α} (h : ∀ x ∈ xs, d (f x) = .ok x) :
    elements d (xs.map f) = .ok xs := by
  induction xs with
  | nil => rfl
  | cons x xs ih =>
      obtain ⟨hx, hxs⟩ := List.forall_mem_cons.mp h
      exact bind_eq_ok_iff.mpr ⟨x, hx, bind_eq_ok_iff.mpr ⟨xs, ih hxs, rfl⟩⟩

theorem entries_map {es : List (String × α)} (h : ∀ e ∈ es, d (f e.2) = .ok e.2) :
    entries d (es.map fun e => (e.1, f e.2)) = .ok es := by
  induction es with
  | nil => rfl
  | cons e es ih =>
      obtain ⟨he, hes⟩ := List.forall_mem_cons.mp h
      exact bind_eq_ok_iff.mpr ⟨e.2, he, bind_eq_ok_iff.mpr ⟨es, ih hes, rfl⟩⟩

end Decoder

/-! ## Members -/

/-- Among members of distinct names a lookup finds the one of the name. -/
theorem Json.member?_eq_some_iff {ms : List (String × Json)} {name : String} {j : Json}
    (hms : (ms.map (·.1)).Nodup) : Json.member? ms name = some j ↔ (name, j) ∈ ms := by
  rw [Json.member?, Option.map_eq_some_iff]
  constructor
  · rintro ⟨m, hm, rfl⟩
    have hname := List.find?_some hm
    rw [← beq_iff_eq.mp hname]
    exact List.mem_reverse.mp (List.mem_of_find?_eq_some hm)
  · intro hmem
    cases hfind : ms.reverse.find? fun m => m.1 == name with
    | none =>
        have hne := List.find?_eq_none.mp hfind (name, j) (List.mem_reverse.mpr hmem)
        exact absurd (beq_self_eq_true name) hne
    | some m =>
        have hname := List.find?_some hfind
        have hm : m ∈ ms := List.mem_reverse.mp (List.mem_of_find?_eq_some hfind)
        have hsame := List.inj_on_of_nodup_map hms hm hmem (beq_iff_eq.mp hname)
        exact ⟨m, rfl, congrArg Prod.snd hsame⟩

theorem Decode.Members.check_eq_ok {fields : List Field} {ms : Members}
    (h : ∀ m ∈ ms, ∀ f ∈ fields, f.name = m.1 → f.check m.2 = .ok ()) :
    Members.check fields ms = .ok () := by
  induction ms with
  | nil => rfl
  | cons m ms ih =>
      obtain ⟨hm, hms⟩ := List.forall_mem_cons.mp h
      rw [Members.check]
      cases hfind : fields.find? fun f => f.name == m.1 with
      | none => exact ih hms
      | some f =>
          have hname := List.find?_some hfind
          have hcheck := hm f (List.mem_of_find?_eq_some hfind) (beq_iff_eq.mp hname)
          exact bind_eq_ok_iff.mpr ⟨(), hcheck, ih hms⟩

/-- Each member is one of a field, and is not null or empty where it could be left out. -/
def Decode.Members.Minimal (fields : List Field) (ms : Members) : Prop :=
  ∀ m ∈ ms, ∃ f ∈ fields, f.name = m.1 ∧ (f.presence = .nullable → m.2 ≠ .null) ∧
    (f.presence = .defaulted → m.2 ≠ .array [] ∧ m.2 ≠ .object [])

/-! ## Slots -/

/-- A declared field, with the member that is written for it. -/
abbrev Slot := Field × Option (String × Json)

namespace Slot

variable {α : Type}

/-- A field that is always written. -/
def always (name : String) (d : Decoder α) (j : Json) : Slot :=
  (.required name d, Json.always name j)

/-- A field that is written when there is a value. -/
def optional (name : String) (d : Decoder α) (v : Option α) (f : α → Json) : Slot :=
  (.nullable name d, Json.optional name v f)

/-- A field that is written when the list is not empty. -/
def nonEmpty (name : String) (d : Decoder (List α)) (xs : List α) (f : List α → Json) : Slot :=
  (.defaulted name d, Json.nonEmpty name xs f)

/-- The member suits the field, and says more than its absence would. -/
structure Restores (s : Slot) : Prop where
  name : ∀ m ∈ s.2, m.1 = s.1.name
  check : ∀ m ∈ s.2, s.1.check m.2 = .ok ()
  notNull : s.1.presence = .nullable → ∀ m ∈ s.2, m.2 ≠ .null
  notEmpty : s.1.presence = .defaulted → ∀ m ∈ s.2, m.2 ≠ .array [] ∧ m.2 ≠ .object []

variable {name : String}

theorem nullable_eq_ok {d : Decoder α} {j : Json} {a : α} (h : d j = .ok a) (hj : j ≠ .null) :
    d.nullable j = .ok (some a) := by
  cases j with
  | null => exact absurd rfl hj
  | _ => exact map_eq_ok_iff.mpr ⟨a, h, rfl⟩

theorem restores_always {d : Decoder α} {j : Json} {a : α} (h : d j = .ok a) :
    (always name d j).Restores where
  name m hm := by
    cases hm
    rfl
  check m hm := by
    cases hm
    exact map_eq_ok_iff.mpr ⟨a, h, rfl⟩
  notNull := nofun
  notEmpty := nofun

theorem restores_optional {d : Decoder α} {v : Option α} {f : α → Json}
    (h : ∀ a ∈ v, d (f a) = .ok a) (hnull : ∀ a ∈ v, f a ≠ .null) :
    (optional name d v f).Restores where
  name m hm := by
    obtain ⟨a, -, rfl⟩ := Option.map_eq_some_iff.mp hm
    rfl
  check m hm := by
    obtain ⟨a, ha, rfl⟩ := Option.map_eq_some_iff.mp hm
    exact map_eq_ok_iff.mpr ⟨some a, nullable_eq_ok (h a ha) (hnull a ha), rfl⟩
  notNull _ m hm := by
    obtain ⟨a, ha, rfl⟩ := Option.map_eq_some_iff.mp hm
    exact hnull a ha
  notEmpty := nofun

theorem restores_nonEmpty {d : Decoder (List α)} {xs : List α} {f : List α → Json}
    (h : d (f xs) = .ok xs) (hempty : xs ≠ [] → f xs ≠ .array [] ∧ f xs ≠ .object []) :
    (nonEmpty name d xs f).Restores := by
  cases xs with
  | nil => exact ⟨nofun, nofun, nofun, nofun⟩
  | cons x xs =>
      refine ⟨?_, ?_, nofun, ?_⟩
      · intro m hm
        cases hm
        rfl
      · intro m hm
        cases hm
        exact map_eq_ok_iff.mpr ⟨x :: xs, h, rfl⟩
      · intro _ m hm
        cases hm
        exact hempty (List.cons_ne_nil _ _)

end Slot

/-! ## Layouts -/

/-- The slots of a record with the given fields, of which each restores its part. -/
structure Layout (fields : List Field) (slots : List Slot) : Prop where
  fields_eq : slots.map (·.1) = fields
  nodup : (fields.map (·.name)).Nodup
  restores : ∀ s ∈ slots, s.Restores

namespace Layout

variable {α : Type} {fields : List Field} {slots : List Slot} {name : String}

/-- The members that are written. -/
def members (slots : List Slot) : Members := (slots.map (·.2)).filterMap id

theorem mem_members {m : String × Json} : m ∈ members slots ↔ ∃ s ∈ slots, s.2 = some m := by
  simp [members]

/-- Two slots of one name are the same slot. -/
theorem eq_of_name_eq (h : Layout fields slots) {s s' : Slot} (hs : s ∈ slots) (hs' : s' ∈ slots)
    (hname : s.1.name = s'.1.name) : s = s' := by
  have hnodup : (slots.map fun s => s.1.name).Nodup := by
    have hmap := h.nodup
    rwa [← h.fields_eq, List.map_map] at hmap
  exact List.inj_on_of_nodup_map hnodup hs hs' hname

theorem eq_of_mem_fields (h : Layout fields slots) {s : Slot} (hs : s ∈ slots) {f : Field}
    (hf : f ∈ fields) (hname : f.name = s.1.name) : f = s.1 := by
  rw [← h.fields_eq] at hf
  obtain ⟨s', hs', rfl⟩ := List.mem_map.mp hf
  rw [h.eq_of_name_eq hs' hs hname]

theorem nodup_members (h : Layout fields slots) : ((members slots).map (·.1)).Nodup := by
  have hnames : slots.Pairwise fun s s' => s.1.name ≠ s'.1.name := by
    have hnodup := h.nodup
    rwa [← h.fields_eq, List.map_map, List.Nodup, List.pairwise_map] at hnodup
  rw [members, List.filterMap_map, List.Nodup, List.pairwise_map, List.pairwise_filterMap]
  refine hnames.imp_of_mem ?_
  intro s s' hs hs' hne m hm m' hm' heq
  rw [(h.restores s hs).name m hm, (h.restores s' hs').name m' hm'] at heq
  exact hne heq

/-- A record is read from its members. -/
theorem read (h : Layout fields slots) (record : String) :
    Members.read record fields (.object (members slots)) = .ok (members slots) := by
  refine bind_eq_ok_iff.mpr ⟨(), Members.check_eq_ok ?_, rfl⟩
  intro m hm f hf hname
  obtain ⟨s, hs, hm⟩ := mem_members.mp hm
  have hrestores := h.restores s hs
  rw [h.eq_of_mem_fields hs hf (hname.trans (hrestores.name m hm))]
  exact hrestores.check m hm

/-- The member of a field is the one of its slot. -/
theorem member?_eq (h : Layout fields slots) {s : Slot} (hs : s ∈ slots) :
    Json.member? (members slots) s.1.name = s.2.map (·.2) := by
  apply Option.ext
  intro j
  rw [Json.member?_eq_some_iff h.nodup_members, mem_members]
  constructor
  · rintro ⟨s', hs', hm⟩
    have hname := (h.restores s' hs').name _ hm
    rw [h.eq_of_name_eq hs hs' hname, hm]
    rfl
  · intro hj
    obtain ⟨m, hm, rfl⟩ := Option.map_eq_some_iff.mp hj
    refine ⟨s, hs, ?_⟩
    rw [hm, ← (h.restores s hs).name m hm]

theorem required (h : Layout fields slots) (i : Nat) {d : Decoder α} {j : Json} {a : α}
    (hs : slots[i]? = some (.always name d j)) (hd : d j = .ok a) :
    (members slots).required name d = .ok a := by
  have hmember : Json.member? (members slots) name = some j :=
    h.member?_eq (List.mem_of_getElem? hs)
  rw [Members.required, hmember]
  exact hd

theorem nullable (h : Layout fields slots) (i : Nat) {d : Decoder α} {v : Option α}
    {f : α → Json} (hs : slots[i]? = some (.optional name d v f))
    (hd : ∀ a ∈ v, d (f a) = .ok a) : (members slots).nullable name d = .ok v := by
  have hmem := List.mem_of_getElem? hs
  have hmember : Json.member? (members slots) name = (Json.optional name v f).map (·.2) :=
    h.member?_eq hmem
  rw [Members.nullable, hmember]
  cases v with
  | none => rfl
  | some a => exact Slot.nullable_eq_ok (hd a rfl) ((h.restores _ hmem).notNull rfl _ rfl)

theorem defaulted (h : Layout fields slots) (i : Nat) {d : Decoder (List α)} {xs : List α}
    {f : List α → Json} (hs : slots[i]? = some (.nonEmpty name d xs f)) (hd : d (f xs) = .ok xs) :
    (members slots).defaulted name [] d = .ok xs := by
  have hmember : Json.member? (members slots) name = (Json.nonEmpty name xs f).map (·.2) :=
    h.member?_eq (List.mem_of_getElem? hs)
  rw [Members.defaulted, hmember]
  cases xs with
  | nil => rfl
  | cons x xs => exact hd

theorem minimal (h : Layout fields slots) : (members slots).Minimal fields := by
  intro m hm
  obtain ⟨s, hs, hm⟩ := mem_members.mp hm
  have hrestores := h.restores s hs
  have hmem : s.1 ∈ fields := by
    rw [← h.fields_eq]
    exact List.mem_map_of_mem hs
  exact ⟨s.1, hmem, (hrestores.name m hm).symm, fun hf => hrestores.notNull hf m hm,
    fun hf => hrestores.notEmpty hf m hm⟩

end Layout

/-- A record that is read back from what is written, where nothing is written for a field that may
be left out and has no value or an empty one. -/
structure Decode.Faithful {α : Type} (fields : List Field) (read : Decoder α) (write : α → Json)
    (valid : α → Prop) : Prop where
  reads : ∀ a, valid a → read (write a) = .ok a
  omits : ∀ a, valid a → ∃ ms : Members, write a = .object ms ∧ ms.Minimal fields

end ItemStore
