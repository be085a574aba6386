import ItemStore.Proofs.Base64
import ItemStore.Proofs.OrderedMap
import ItemStore.Value.Wire

/-!
# Tagged values are a faithful encoding

A value is read back from its tagged form (`ofJson_toJson`), and what is read is the tagged form
of the result and nothing else (`ofJson_sound`).  A JSON object counts as a map here:
`Json.sorted` gives the map that the members of an object stand for, at every depth.

Both proofs follow the mutual recursion of the reader: one statement for a tagged value, one for a
payload, one for the elements of a list and one for the entries of a map.  `Malformed` says what is
refused in the terms of the format, without reference to the reader (`exists_error_iff`).
-/

namespace ItemStore

open Json (Source)

/-- Each map within the value has its names in increasing order. -/
inductive Value.WellFormed : Value → Prop
  | flat {v : Value} : v.kind ≠ .list → v.kind ≠ .map → WellFormed v
  | list {xs : List Value} : (∀ x ∈ xs, WellFormed x) → WellFormed (.list xs)
  | map {es : List (String × Value)} : NameMap.Ascending es → (∀ e ∈ es, WellFormed e.2) →
      WellFormed (.map es)

/-- The attributes are in the order of their names, and so are the maps within their values. -/
structure Item.WellFormed (item : Item) : Prop where
  ascending : NameMap.Ascending item
  values : ∀ e ∈ item, e.2.WellFormed

theorem Json.sortedElements_eq_map (xs : List Json) : sortedElements xs = xs.map sorted := by
  induction xs with
  | nil => rfl
  | cons x xs ih => rw [sortedElements, ih, List.map_cons]

theorem Json.sortedMembers_eq_map (ms : List (String × Json)) :
    sortedMembers ms = ms.map fun m => (m.1, m.2.sorted) := by
  induction ms with
  | nil => rfl
  | cons m ms ih => rw [sortedMembers, ih, List.map_cons]

namespace Value

variable {v : Value} {k : Kind} {j payload : Json} {ss : List String} {bs : List (List UInt8)}

theorem WellFormed.of_list {xs : List Value} (h : (Value.list xs).WellFormed) :
    ∀ x ∈ xs, x.WellFormed := by
  cases h with
  | flat hlist _ => exact absurd rfl hlist
  | list h => exact h

theorem WellFormed.of_map {es : List (String × Value)} (h : (Value.map es).WellFormed) :
    NameMap.Ascending es ∧ ∀ e ∈ es, e.2.WellFormed := by
  cases h with
  | flat _ hmap => exact absurd rfl hmap
  | map hes h => exact ⟨hes, h⟩

/-! ## The shapes of tagged values -/

theorem entriesToJson_eq_map (es : List (String × Value)) :
    entriesToJson es = es.map fun e => (e.1, e.2.toJson) := by
  induction es with
  | nil => rfl
  | cons e es ih => rw [entriesToJson, ih, List.map_cons]

theorem mismatch_ne_ok {α : Type} {a : α} (expected : String) (s : Source) :
    TextDecoder.mismatch expected s ≠ .ok a := by
  intro h
  obtain ⟨f, -, hf⟩ := bind_eq_ok_iff.mp h
  cases hf

theorem ofTag?_eq_some_iff {tag : String} : Kind.ofTag? tag = some k ↔ tag = k.tag := by
  constructor
  · intro h
    have htag : (k.tag == tag) = true := by
      simpa using List.find?_some h
    exact (beq_iff_eq.mp htag).symm
  · rintro rfl
    exact Kind.ofTag?_tag k

/-- A tagged value is read exactly from an object with a tag as its only member. -/
theorem ofJson_eq_ok_iff : ofJson j = .ok v ↔
    ∃ k payload, j = .object [(k.tag, payload)] ∧
      ofPayload k (Source.ofJson payload) = .ok v := by
  constructor
  · intro h
    cases j with
    | object ms =>
        match ms with
        | [] => cases h
        | (name, payload) :: more =>
            have h : ofSource (.object ((.ok name, Source.ofJson payload) ::
                Source.ofMembers more)) = .ok v := h
            rw [ofSource] at h
            obtain ⟨tag, htag, h⟩ := bind_eq_ok_iff.mp h
            cases mapError_eq_ok_iff.mp htag
            split at h
            next => cases h
            next k hk =>
              obtain ⟨v', hv, h⟩ := bind_eq_ok_iff.mp h
              match more with
              | [] =>
                  cases h
                  rw [ofTag?_eq_some_iff.mp hk]
                  exact ⟨k, payload, rfl, hv⟩
              | _ :: _ =>
                  obtain ⟨_, -, h⟩ := bind_eq_ok_iff.mp h
                  cases h
    | _ => exact absurd h (mismatch_ne_ok _ _)
  · rintro ⟨k, payload, rfl, h⟩
    show ofSource (.object [(.ok k.tag, Source.ofJson payload)]) = .ok v
    rw [ofSource]
    refine bind_eq_ok_iff.mpr ⟨k.tag, rfl, ?_⟩
    simp only [Kind.ofTag?_tag]
    exact bind_eq_ok_iff.mpr ⟨v, h, rfl⟩

theorem tag_inj {k k' : Kind} (h : k.tag = k'.tag) : k = k' := by
  have hsome := Kind.ofTag?_tag k
  rw [h, Kind.ofTag?_tag, Option.some.injEq] at hsome
  exact hsome.symm

theorem ofJson_tagged_eq_ok_iff : ofJson (.object [(k.tag, payload)]) = .ok v ↔
    ofPayload k (Source.ofJson payload) = .ok v := by
  rw [ofJson_eq_ok_iff]
  constructor
  · rintro ⟨k', payload', hj, h⟩
    simp only [Json.object.injEq, List.cons.injEq, Prod.mk.injEq, and_true] at hj
    rw [tag_inj hj.1, hj.2]
    exact h
  · intro h
    exact ⟨k, payload, rfl, h⟩

/-! ## Sets -/

theorem string_eq_ok_iff {s : String} :
    TextDecoder.string (Source.ofJson j) = .ok s ↔ j = .string s := by
  constructor
  · intro h
    cases j with
    | string s' =>
        cases h
        rfl
    | _ => exact absurd h (mismatch_ne_ok _ _)
  · rintro rfl
    rfl

theorem strings_eq_ok_iff {xs : List Json} :
    TextDecoder.elements TextDecoder.string (Source.ofElements xs) = .ok ss ↔
      xs = ss.map .string := by
  induction xs generalizing ss with
  | nil => cases ss <;> simp [Source.ofElements, TextDecoder.elements]
  | cons x xs ih =>
      simp only [Source.ofElements, TextDecoder.elements, bind_eq_ok_iff, string_eq_ok_iff, ih]
      cases ss <;> simp

theorem binaryOfText_eq_ok_iff {s : String} {b : List UInt8} :
    binaryOfText s = .ok b ↔ s = Base64.encode b := by
  rw [← Base64.decode_eq_ok_iff, binaryOfText]
  cases Base64.decode s <;> simp

theorem binariesOfTexts_eq_ok_iff :
    binariesOfTexts ss = .ok bs ↔ ss = bs.map Base64.encode := by
  induction ss generalizing bs with
  | nil => cases bs <;> simp [binariesOfTexts]
  | cons s ss ih =>
      simp only [binariesOfTexts, bind_eq_ok_iff, binaryOfText_eq_ok_iff, ih]
      cases bs <;> simp

theorem sortedElements_strings (ss : List String) :
    Json.sortedElements (ss.map .string) = ss.map .string := by
  rw [Json.sortedElements_eq_map, List.map_map]
  rfl

/-! ## Reading what was written -/

mutual

/-- A value is read back from its tagged form. -/
theorem ofJson_toJson : ∀ {v : Value}, v.WellFormed → ofJson v.toJson = .ok v
  | string s, _ => ofJson_eq_ok_iff.mpr ⟨.string, .string s, rfl, rfl⟩
  | number n, _ => ofJson_eq_ok_iff.mpr ⟨.number, .string n, rfl, rfl⟩
  | binary b, _ => by
      refine ofJson_eq_ok_iff.mpr ⟨.binary, .string (Base64.encode b), rfl, ?_⟩
      exact map_eq_ok_iff.mpr ⟨b, binaryOfText_eq_ok_iff.mpr rfl, rfl⟩
  | stringSet ss, _ => by
      refine ofJson_eq_ok_iff.mpr ⟨.stringSet, .array (ss.map .string), rfl, ?_⟩
      exact map_eq_ok_iff.mpr ⟨ss, strings_eq_ok_iff.mpr rfl, rfl⟩
  | numberSet ss, _ => by
      refine ofJson_eq_ok_iff.mpr ⟨.numberSet, .array (ss.map .string), rfl, ?_⟩
      exact map_eq_ok_iff.mpr ⟨ss, strings_eq_ok_iff.mpr rfl, rfl⟩
  | binarySet bs, _ => by
      have hxs : bs.map (fun b => Json.string (Base64.encode b)) =
          (bs.map Base64.encode).map .string := by simp
      refine ofJson_eq_ok_iff.mpr ⟨.binarySet, _, rfl, ?_⟩
      refine bind_eq_ok_iff.mpr ⟨bs.map Base64.encode, strings_eq_ok_iff.mpr hxs, ?_⟩
      exact map_eq_ok_iff.mpr ⟨bs, binariesOfTexts_eq_ok_iff.mpr rfl, rfl⟩
  | bool b, _ => ofJson_eq_ok_iff.mpr ⟨.bool, .bool b, rfl, rfl⟩
  | null b, _ => ofJson_eq_ok_iff.mpr ⟨.null, .bool b, rfl, rfl⟩
  | list xs, h => by
      refine ofJson_eq_ok_iff.mpr ⟨.list, .array (elementsToJson xs), rfl, ?_⟩
      exact map_eq_ok_iff.mpr ⟨xs, ofElements_elementsToJson h.of_list, rfl⟩
  | map es, h => by
      obtain ⟨hes, hvalues⟩ := h.of_map
      refine ofJson_eq_ok_iff.mpr ⟨.map, .object (entriesToJson es), rfl, ?_⟩
      refine map_eq_ok_iff.mpr ⟨es, ofMembers_entriesToJson hvalues, ?_⟩
      rw [hes.ofEntries_self]

theorem ofElements_elementsToJson : ∀ {xs : List Value}, (∀ x ∈ xs, x.WellFormed) →
    ofElements (Source.ofElements (elementsToJson xs)) = .ok xs
  | [], _ => rfl
  | x :: xs, h => by
      obtain ⟨hx, hxs⟩ := List.forall_mem_cons.mp h
      exact bind_eq_ok_iff.mpr ⟨x, ofJson_toJson hx,
        bind_eq_ok_iff.mpr ⟨xs, ofElements_elementsToJson hxs, rfl⟩⟩

theorem ofMembers_entriesToJson : ∀ {es : List (String × Value)}, (∀ e ∈ es, e.2.WellFormed) →
    ofMembers (Source.ofMembers (entriesToJson es)) = .ok es
  | [], _ => rfl
  | (name, x) :: es, h => by
      obtain ⟨hx, hes⟩ := List.forall_mem_cons.mp h
      exact bind_eq_ok_iff.mpr ⟨name, rfl, bind_eq_ok_iff.mpr ⟨x, ofJson_toJson hx,
        bind_eq_ok_iff.mpr ⟨es, ofMembers_entriesToJson hes, rfl⟩⟩⟩

end

/-! ## What is read -/

mutual

/-- What is read is the tagged form of the result. -/
theorem ofJson_sound : ∀ {j : Json} {v : Value}, ofJson j = .ok v →
    v.WellFormed ∧ v.toJson = j.sorted
  | .object [(name, payload)], v, h => by
      obtain ⟨k, _, hj, h⟩ := ofJson_eq_ok_iff.mp h
      cases hj
      exact ofPayload_sound h
  | .object [], _, h => by cases h
  | .object (_ :: _ :: _), _, h => by
      obtain ⟨_, _, hj, -⟩ := ofJson_eq_ok_iff.mp h
      cases hj
  | .null, _, h | .bool _, _, h | .number _, _, h | .string _, _, h | .array _, _, h =>
      absurd h (mismatch_ne_ok _ _)

theorem ofPayload_sound : ∀ {payload : Json} {k : Kind} {v : Value},
    ofPayload k (Source.ofJson payload) = .ok v →
      v.WellFormed ∧ v.toJson = .object [(k.tag, payload.sorted)]
  | .null, _, _, h => absurd h (mismatch_ne_ok _ _)
  | .bool b, k, v, h => by
      cases k with
      | bool | null =>
          cases h
          exact ⟨.flat nofun nofun, rfl⟩
      | _ => exact absurd h (mismatch_ne_ok _ _)
  | .number _, _, _, h => absurd h (mismatch_ne_ok _ _)
  | .string s, k, v, h => by
      cases k with
      | string | number =>
          cases h
          exact ⟨.flat nofun nofun, rfl⟩
      | binary =>
          obtain ⟨b, hb, rfl⟩ := map_eq_ok_iff.mp h
          rw [binaryOfText_eq_ok_iff.mp hb]
          exact ⟨.flat nofun nofun, rfl⟩
      | _ => exact absurd h (mismatch_ne_ok _ _)
  | .array xs, k, v, h => by
      cases k with
      | list =>
          obtain ⟨vs, hvs, rfl⟩ := map_eq_ok_iff.mp h
          obtain ⟨hwell, hjson⟩ := ofElements_sound hvs
          exact ⟨.list hwell, by rw [toJson, hjson, Json.sorted]⟩
      | stringSet | numberSet =>
          obtain ⟨ss, hss, rfl⟩ := map_eq_ok_iff.mp h
          rw [strings_eq_ok_iff.mp hss, Json.sorted, sortedElements_strings]
          exact ⟨.flat nofun nofun, rfl⟩
      | binarySet =>
          obtain ⟨ss, hss, h⟩ := bind_eq_ok_iff.mp h
          obtain ⟨bs, hbs, rfl⟩ := map_eq_ok_iff.mp h
          rw [strings_eq_ok_iff.mp hss, Json.sorted, sortedElements_strings,
            binariesOfTexts_eq_ok_iff.mp hbs, List.map_map]
          exact ⟨.flat nofun nofun, rfl⟩
      | _ => exact absurd h (mismatch_ne_ok _ _)
  | .object ms, k, v, h => by
      cases k with
      | map =>
          obtain ⟨es, hes, rfl⟩ := map_eq_ok_iff.mp h
          obtain ⟨hwell, hjson⟩ := ofMembers_sound hes
          refine ⟨.map (NameMap.ascending_ofEntries es)
            fun e he => hwell e (NameMap.mem_ofEntries he), ?_⟩
          rw [toJson, Json.sorted, ← hjson, entriesToJson_eq_map, entriesToJson_eq_map,
            ← NameMap.ofEntries_map]
      | _ => exact absurd h (mismatch_ne_ok _ _)

theorem ofElements_sound : ∀ {xs : List Json} {vs : List Value},
    ofElements (Source.ofElements xs) = .ok vs →
      (∀ v ∈ vs, v.WellFormed) ∧ elementsToJson vs = Json.sortedElements xs
  | [], _, h => by
      cases h
      exact ⟨nofun, rfl⟩
  | x :: xs, _, h => by
      obtain ⟨v, hv, h⟩ := bind_eq_ok_iff.mp h
      obtain ⟨vs, hvs, h⟩ := bind_eq_ok_iff.mp h
      cases h
      obtain ⟨hwell, hjson⟩ := ofJson_sound hv
      obtain ⟨hwells, hjsons⟩ := ofElements_sound hvs
      refine ⟨List.forall_mem_cons.mpr ⟨hwell, hwells⟩, ?_⟩
      rw [elementsToJson, Json.sortedElements, hjson, hjsons]

theorem ofMembers_sound : ∀ {ms : List (String × Json)} {es : List (String × Value)},
    ofMembers (Source.ofMembers ms) = .ok es →
      (∀ e ∈ es, e.2.WellFormed) ∧ entriesToJson es = Json.sortedMembers ms
  | [], _, h => by
      cases h
      exact ⟨nofun, rfl⟩
  | (name, x) :: ms, _, h => by
      obtain ⟨_, hname, h⟩ := bind_eq_ok_iff.mp h
      cases mapError_eq_ok_iff.mp hname
      obtain ⟨v, hv, h⟩ := bind_eq_ok_iff.mp h
      obtain ⟨es, hes, h⟩ := bind_eq_ok_iff.mp h
      cases h
      obtain ⟨hwell, hjson⟩ := ofJson_sound hv
      obtain ⟨hwells, hjsons⟩ := ofMembers_sound hes
      refine ⟨List.forall_mem_cons.mpr ⟨hwell, hwells⟩, ?_⟩
      rw [entriesToJson, Json.sortedMembers, hjson, hjsons]

end

/-! ## What is refused -/

/-- The payloads of a kind, what is within a list or a map apart. -/
def Carries : Kind → Json → Prop
  | .string, payload | .number, payload => ∃ s, payload = .string s
  | .binary, payload => ∃ b, payload = .string (Base64.encode b)
  | .stringSet, payload | .numberSet, payload =>
      ∃ ss : List String, payload = .array (ss.map .string)
  | .binarySet, payload =>
      ∃ bs : List (List UInt8), payload = .array (bs.map fun b => .string (Base64.encode b))
  | .bool, payload | .null, payload => ∃ b, payload = .bool b
  | .list, payload => ∃ xs, payload = .array xs
  | .map, payload => ∃ ms, payload = .object ms

/-- A JSON value that is no tagged value, or has something within it that is none. -/
inductive Malformed : Json → Prop
  | notObject {j : Json} : (∀ ms, j ≠ .object ms) → Malformed j
  | noTag : Malformed (.object [])
  | secondTag {first second : String × Json} {more : List (String × Json)} :
      Malformed (.object (first :: second :: more))
  | unknownTag {tag : String} {payload : Json} : (∀ k : Kind, tag ≠ k.tag) →
      Malformed (.object [(tag, payload)])
  | otherPayload {k : Kind} {payload : Json} : ¬ Carries k payload →
      Malformed (.object [(k.tag, payload)])
  | element {xs : List Json} {x : Json} : x ∈ xs → Malformed x →
      Malformed (.object [(Kind.list.tag, .array xs)])
  | entry {ms : List (String × Json)} {m : String × Json} : m ∈ ms → Malformed m.2 →
      Malformed (.object [(Kind.map.tag, .object ms)])

theorem carries_of_ofPayload (h : ofPayload k (Source.ofJson payload) = .ok v) :
    Carries k payload := by
  cases payload with
  | null | number _ => exact absurd h (mismatch_ne_ok _ _)
  | bool b =>
      cases k with
      | bool | null => exact ⟨b, rfl⟩
      | _ => exact absurd h (mismatch_ne_ok _ _)
  | string s =>
      cases k with
      | string | number => exact ⟨s, rfl⟩
      | binary =>
          obtain ⟨b, hb, -⟩ := map_eq_ok_iff.mp h
          exact ⟨b, congrArg _ (binaryOfText_eq_ok_iff.mp hb)⟩
      | _ => exact absurd h (mismatch_ne_ok _ _)
  | array xs =>
      cases k with
      | list => exact ⟨xs, rfl⟩
      | stringSet | numberSet =>
          obtain ⟨ss, hss, -⟩ := map_eq_ok_iff.mp h
          exact ⟨ss, congrArg _ (strings_eq_ok_iff.mp hss)⟩
      | binarySet =>
          obtain ⟨ss, hss, h⟩ := bind_eq_ok_iff.mp h
          obtain ⟨bs, hbs, -⟩ := map_eq_ok_iff.mp h
          refine ⟨bs, ?_⟩
          rw [strings_eq_ok_iff.mp hss, binariesOfTexts_eq_ok_iff.mp hbs, List.map_map,
            Function.comp_def]
      | _ => exact absurd h (mismatch_ne_ok _ _)
  | object ms =>
      cases k with
      | map => exact ⟨ms, rfl⟩
      | _ => exact absurd h (mismatch_ne_ok _ _)

theorem exists_ok_of_mem_elements {xs : List Json} {vs : List Value} {x : Json}
    (h : ofElements (Source.ofElements xs) = .ok vs) (hx : x ∈ xs) : ∃ v, ofJson x = .ok v := by
  induction xs generalizing vs with
  | nil => cases hx
  | cons y xs ih =>
      obtain ⟨v, hv, h⟩ := bind_eq_ok_iff.mp h
      obtain ⟨vs', hvs, -⟩ := bind_eq_ok_iff.mp h
      rcases List.mem_cons.mp hx with rfl | hx
      · exact ⟨v, hv⟩
      · exact ih hvs hx

theorem exists_ok_of_mem_members {ms : List (String × Json)} {es : List (String × Value)}
    {m : String × Json} (h : ofMembers (Source.ofMembers ms) = .ok es) (hm : m ∈ ms) :
    ∃ v, ofJson m.2 = .ok v := by
  induction ms generalizing es with
  | nil => cases hm
  | cons m' ms ih =>
      obtain ⟨_, -, h⟩ := bind_eq_ok_iff.mp h
      obtain ⟨v, hv, h⟩ := bind_eq_ok_iff.mp h
      obtain ⟨es', hes, -⟩ := bind_eq_ok_iff.mp h
      rcases List.mem_cons.mp hm with rfl | hm
      · exact ⟨v, hv⟩
      · exact ih hes hm

theorem Malformed.ne_ok (h : Malformed j) : ∀ v, ofJson j ≠ .ok v := by
  induction h with
  | notObject hj =>
      intro v hv
      obtain ⟨_, _, rfl, -⟩ := ofJson_eq_ok_iff.mp hv
      exact hj _ rfl
  | noTag =>
      intro v hv
      cases hv
  | secondTag =>
      intro v hv
      obtain ⟨_, _, hj, -⟩ := ofJson_eq_ok_iff.mp hv
      cases hj
  | unknownTag htag =>
      intro v hv
      obtain ⟨k, _, hj, -⟩ := ofJson_eq_ok_iff.mp hv
      cases hj
      exact htag k rfl
  | otherPayload hpayload =>
      intro v hv
      exact hpayload (carries_of_ofPayload (ofJson_tagged_eq_ok_iff.mp hv))
  | element hx _ ih =>
      intro v hv
      obtain ⟨vs, hvs, -⟩ := map_eq_ok_iff.mp (ofJson_tagged_eq_ok_iff.mp hv)
      obtain ⟨v', hv'⟩ := exists_ok_of_mem_elements hvs hx
      exact ih v' hv'
  | entry hm _ ih =>
      intro v hv
      obtain ⟨es, hes, -⟩ := map_eq_ok_iff.mp (ofJson_tagged_eq_ok_iff.mp hv)
      obtain ⟨v', hv'⟩ := exists_ok_of_mem_members hes hm
      exact ih v' hv'

/-- The payload of a scalar or a set is read, or is the payload of another kind. -/
theorem exists_ok_or_malformed_flat (hlist : k = .list → ∀ xs, payload ≠ .array xs)
    (hmap : k = .map → ∀ ms, payload ≠ .object ms) :
    (∃ v, ofPayload k (Source.ofJson payload) = .ok v) ∨
      Malformed (.object [(k.tag, payload)]) := by
  by_cases h : Carries k payload
  · left
    cases k with
    | list =>
        obtain ⟨xs, rfl⟩ := h
        exact absurd rfl (hlist rfl xs)
    | map =>
        obtain ⟨ms, rfl⟩ := h
        exact absurd rfl (hmap rfl ms)
    | string | number | bool | null =>
        obtain ⟨_, rfl⟩ := h
        exact ⟨_, rfl⟩
    | binary =>
        obtain ⟨b, rfl⟩ := h
        exact ⟨binary b, map_eq_ok_iff.mpr ⟨b, binaryOfText_eq_ok_iff.mpr rfl, rfl⟩⟩
    | stringSet | numberSet =>
        obtain ⟨ss, rfl⟩ := h
        exact ⟨_, map_eq_ok_iff.mpr ⟨ss, strings_eq_ok_iff.mpr rfl, rfl⟩⟩
    | binarySet =>
        obtain ⟨bs, rfl⟩ := h
        have hread : ofJson (binarySet bs).toJson = .ok (binarySet bs) :=
          ofJson_toJson (.flat (fun hk => nomatch hk) (fun hk => nomatch hk))
        exact ⟨binarySet bs, ofJson_tagged_eq_ok_iff.mp hread⟩
  · exact Or.inr (.otherPayload h)

mutual

/-- What is not malformed is read. -/
theorem exists_ok_or_malformed : ∀ j : Json, (∃ v, ofJson j = .ok v) ∨ Malformed j
  | .object [] => Or.inr .noTag
  | .object [(tag, payload)] => by
      by_cases htag : ∃ k : Kind, tag = k.tag
      · obtain ⟨k, rfl⟩ := htag
        refine (exists_ok_or_malformed_payload payload k).imp_left ?_
        rintro ⟨v, hv⟩
        exact ⟨v, ofJson_tagged_eq_ok_iff.mpr hv⟩
      · exact Or.inr (.unknownTag fun k hk => htag ⟨k, hk⟩)
  | .object (_ :: _ :: _) => Or.inr .secondTag
  | .null | .bool _ | .number _ | .string _ | .array _ => Or.inr (.notObject nofun)

theorem exists_ok_or_malformed_payload : ∀ (payload : Json) (k : Kind),
    (∃ v, ofPayload k (Source.ofJson payload) = .ok v) ∨ Malformed (.object [(k.tag, payload)])
  | .array xs, k => by
      rcases Decidable.eq_or_ne k .list with rfl | hk
      · rcases exists_ok_or_malformed_elements xs with ⟨vs, hvs⟩ | ⟨x, hx, hbad⟩
        · exact Or.inl ⟨list vs, map_eq_ok_iff.mpr ⟨vs, hvs, rfl⟩⟩
        · exact Or.inr (.element hx hbad)
      · exact exists_ok_or_malformed_flat (fun h => absurd h hk) (fun _ => nofun)
  | .object ms, k => by
      rcases Decidable.eq_or_ne k .map with rfl | hk
      · rcases exists_ok_or_malformed_members ms with ⟨es, hes⟩ | ⟨m, hm, hbad⟩
        · exact Or.inl ⟨_, map_eq_ok_iff.mpr ⟨es, hes, rfl⟩⟩
        · exact Or.inr (.entry hm hbad)
      · exact exists_ok_or_malformed_flat (fun _ => nofun) (fun h => absurd h hk)
  | .null, _ | .bool _, _ | .number _, _ | .string _, _ =>
      exists_ok_or_malformed_flat (fun _ => nofun) (fun _ => nofun)

theorem exists_ok_or_malformed_elements : ∀ xs : List Json,
    (∃ vs, ofElements (Source.ofElements xs) = .ok vs) ∨ ∃ x ∈ xs, Malformed x
  | [] => Or.inl ⟨[], rfl⟩
  | x :: xs => by
      rcases exists_ok_or_malformed x with ⟨v, hv⟩ | hbad
      · rcases exists_ok_or_malformed_elements xs with ⟨vs, hvs⟩ | ⟨y, hy, hbad⟩
        · exact Or.inl ⟨v :: vs, bind_eq_ok_iff.mpr ⟨v, hv, bind_eq_ok_iff.mpr ⟨vs, hvs, rfl⟩⟩⟩
        · exact Or.inr ⟨y, List.mem_cons_of_mem _ hy, hbad⟩
      · exact Or.inr ⟨x, List.mem_cons_self, hbad⟩

theorem exists_ok_or_malformed_members : ∀ ms : List (String × Json),
    (∃ es, ofMembers (Source.ofMembers ms) = .ok es) ∨ ∃ m ∈ ms, Malformed m.2
  | [] => Or.inl ⟨[], rfl⟩
  | (name, x) :: ms => by
      rcases exists_ok_or_malformed x with ⟨v, hv⟩ | hbad
      · rcases exists_ok_or_malformed_members ms with ⟨es, hes⟩ | ⟨m, hm, hbad⟩
        · exact Or.inl ⟨(name, v) :: es, bind_eq_ok_iff.mpr ⟨name, rfl,
            bind_eq_ok_iff.mpr ⟨v, hv, bind_eq_ok_iff.mpr ⟨es, hes, rfl⟩⟩⟩⟩
        · exact Or.inr ⟨m, List.mem_cons_of_mem _ hm, hbad⟩
      · exact Or.inr ⟨(name, x), List.mem_cons_self, hbad⟩

end

/-- Exactly what is malformed is refused. -/
theorem exists_error_iff : (∃ e, ofJson j = .error e) ↔ Malformed j := by
  constructor
  · rintro ⟨e, he⟩
    rcases exists_ok_or_malformed j with ⟨v, hv⟩ | h
    · rw [hv] at he
      cases he
    · exact h
  · intro h
    cases hj : ofJson j with
    | error e => exact ⟨e, rfl⟩
    | ok v => exact absurd hj (h.ne_ok v)

end Value

end ItemStore
