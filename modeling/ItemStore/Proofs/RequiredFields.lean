import ItemStore.Proofs.BlogItems
import ItemStore.Proofs.PlainData

/-!
# Required fields

That a field is missing is found out from the text of an error.  The reader of a record says so of
a field that is absent (`DecodeError.OfRecord`), and nothing else that it says looks like it
(`SchemaViolation.reportedMissing?_mismatch`).  But an error about a stored number has the text of
the number in it, and so reports whatever that text reports
(`SchemaViolation.reportedMissing?_invalidNumber`).
-/

namespace ItemStore

/-! ## The reported field -/

namespace SchemaViolation

variable {mark cs rest tail : List Char}

theorem isInfix_of_afterMark? (h : afterMark? mark cs = some rest) : mark <:+: cs := by
  induction cs with
  | nil =>
      rw [afterMark?] at h
      split at h
      next hmark => rw [List.isEmpty_iff.mp hmark]
      next => cases h
  | cons c cs ih =>
      rw [afterMark?] at h
      split at h
      next hprefix => exact (List.isPrefixOf_iff_prefix.mp hprefix).isInfix
      next => exact (ih h).trans (List.suffix_cons c cs).isInfix

/-- A tail without the last character of the mark has no part in any occurrence of the mark. -/
theorem prefix_of_prefix_append {last : Char} (hmark : mark.getLast? = some last)
    (htail : last ∉ tail) (h : mark <+: cs ++ tail) : mark <+: cs := by
  rcases List.prefix_or_prefix_of_prefix h (List.prefix_append cs tail) with hcs | ⟨part, rfl⟩
  · exact hcs
  · have hpart : part <+: tail := (List.prefix_append_right_inj cs).mp h
    cases part with
    | nil => simp
    | cons c part =>
        rw [List.getLast?_append_of_ne_nil _ (List.cons_ne_nil c part)] at hmark
        exact absurd (hpart.subset (List.mem_of_getLast? hmark)) htail

/-- Where the mark cannot reach into the tail, the tail is passed on. -/
theorem afterMark?_append {last : Char} (hmark : mark.getLast? = some last) (htail : last ∉ tail)
    (cs : List Char) : afterMark? mark (cs ++ tail) = (afterMark? mark cs).map (· ++ tail) := by
  induction cs with
  | nil =>
      have hempty : afterMark? mark [] = none := by
        cases mark with
        | nil => cases hmark
        | cons => rfl
      rw [hempty, List.nil_append, Option.map_none, Option.eq_none_iff_forall_ne_some]
      intro rest hrest
      exact htail ((isInfix_of_afterMark? hrest).subset (List.mem_of_getLast? hmark))
  | cons c cs ih =>
      rw [List.cons_append, afterMark?, afterMark?]
      by_cases hprefix : mark <+: c :: cs
      · have hlong : mark <+: c :: (cs ++ tail) := hprefix.trans (List.prefix_append (c :: cs) tail)
        rw [if_pos (List.isPrefixOf_iff_prefix.mpr hprefix),
          if_pos (List.isPrefixOf_iff_prefix.mpr hlong), Option.map_some, ← List.cons_append,
          List.drop_append_of_le_length hprefix.length_le]
      · have hshort : ¬ mark <+: c :: (cs ++ tail) := fun h =>
          hprefix (prefix_of_prefix_append hmark htail h)
        rw [if_neg (mt List.isPrefixOf_iff_prefix.mp hprefix),
          if_neg (mt List.isPrefixOf_iff_prefix.mp hshort), ih]

/-- A name ends at the first backtick. -/
theorem takeWhile_name {name : List Char} (h : '\x60' ∉ name) (rest : List Char) :
    (name ++ '\x60' :: rest).takeWhile (· != '\x60') = name := by
  have hname : ∀ c ∈ name, (c != '\x60') = true := by
    intro c hc
    exact bne_iff_ne.mpr fun heq => h (heq ▸ hc)
  rw [List.takeWhile_append_of_pos hname, List.takeWhile_cons_of_neg (by simp), List.append_nil]

/-- A tail without a backtick does not change the report. -/
theorem reportedMissing?_append {text tail : String} (htail : '\x60' ∉ tail.toList) :
    reportedMissing? (text ++ tail) = reportedMissing? text := by
  have hmark : "missing field \x60".toList.getLast? = some '\x60' := by simp
  rw [reportedMissing?, reportedMissing?, String.toList_append, afterMark?_append hmark htail]
  cases afterMark? "missing field \x60".toList text.toList with
  | none => rfl
  | some rest =>
      rw [Option.map_some, Option.bind_some, Option.bind_some]
      by_cases hrest : '\x60' ∈ rest
      · obtain ⟨name, after, rfl, hname⟩ := List.eq_append_cons_of_mem hrest
        rw [List.append_assoc, List.cons_append, takeWhile_name hname, takeWhile_name hname]
        simp
      · simp [hrest, htail]

/-- An error about a stored number reports what the text of the number reports. -/
theorem reportedMissing?_invalidNumber (t : String) :
    reportedMissing? (CodecError.invalidNumber t).message = reportedMissing? t := by
  have hhead : ∀ cs, afterMark? "missing field \x60".toList ("stored number ".toList ++ cs) =
      afterMark? "missing field \x60".toList cs := by simp [afterMark?]
  have htail : '\x60' ∉ " is not representable".toList := by simp
  show reportedMissing? ("stored number " ++ t ++ " is not representable") = _
  rw [reportedMissing?_append htail, reportedMissing?, reportedMissing?, String.toList_append,
    hhead]

/-- The reader of a record reports the name of the field. -/
theorem reportedMissing?_missingField {name : String} (hname : '\x60' ∉ name.toList) :
    reportedMissing? (CodecError.decode (.missingField name)).message = some name := by
  have hafter : afterMark? "missing field \x60".toList
      ("failed to decode item: " ++ ("missing field \x60" ++ name ++ "\x60")).toList =
        some (name.toList ++ ['\x60']) := by
    simp [afterMark?]
  show reportedMissing? ("failed to decode item: " ++ ("missing field \x60" ++ name ++ "\x60")) = _
  rw [reportedMissing?, hafter, Option.bind_some, if_pos (by simp), takeWhile_name hname,
    String.ofList_toList]

/-! ## Other errors -/

/-- The letters of a report that tell it from the other errors of a reader. -/
def isTelling (c : Char) : Bool := c == 'm' || c == 'f' || c == 'l'

theorem not_isTelling_of_isDigit {c : Char} (h : c.isDigit = true) : isTelling c = false := by
  by_contra htelling
  simp only [isTelling, Bool.not_eq_false, Bool.or_eq_true, beq_iff_eq] at htelling
  rcases htelling with (rfl | rfl) | rfl <;> exact absurd h (by decide)

/-- Numbers are written without such letters. -/
theorem filter_toString (i : ℤ) : (toString i).toList.filter isTelling = [] := by
  refine List.filter_eq_nil_iff.mpr fun c hc => ?_
  rcases Text.mem_toString hc with hdigit | rfl
  · simp [not_isTelling_of_isDigit hdigit]
  · decide

theorem filter_text {x : Binary64} (hfinite : x.isFinite = true) :
    (x.text Binary64.exchange).toList.filter isTelling = [] := by
  have hmarks : ∀ c ∈ Binary64.marks, ¬ isTelling c = true := by simp [Binary64.marks, isTelling]
  refine List.filter_eq_nil_iff.mpr fun c hc => ?_
  rcases Binary64.mem_text hfinite hc with hdigit | hmark
  · simp [not_isTelling_of_isDigit hdigit]
  · exact hmarks c hmark

theorem afterMark?_mismatch {found : String}
    (h : ¬ ['m', 'f', 'l'] <:+: ['f', 'l', 'm', 'l'] ++ found.toList.filter isTelling) :
    afterMark? "missing field \x60".toList ("failed to decode item: " ++
      ("invalid type: " ++ found ++ ", expected " ++ "a string")).toList = none := by
  refine Option.eq_none_iff_forall_ne_some.mpr fun rest hrest => h ?_
  have hfilter := (isInfix_of_afterMark? hrest).filter isTelling
  simpa [List.filter, isTelling] using hfilter

/-- That a value is no string is not reported as a missing field. -/
theorem reportedMissing?_mismatch {f : Found} (hf : ∀ s, f ≠ .string s) :
    reportedMissing? (CodecError.decode (.invalidType f "a string")).message = none := by
  suffices h : ¬ ['m', 'f', 'l'] <:+: ['f', 'l', 'm', 'l'] ++ f.text.toList.filter isTelling by
    show (afterMark? _ ("failed to decode item: " ++
      ("invalid type: " ++ f.text ++ ", expected " ++ "a string")).toList).bind _ = none
    rw [afterMark?_mismatch h]
    rfl
  match f with
  | .null | .bool true | .bool false | .sequence | .map => decide +kernel
  | .number (.integer i) =>
      have htext : (Found.number (.integer i)).text = "integer \x60" ++ toString i ++ "\x60" := rfl
      simp only [htext, String.toList_append, List.filter_append, filter_toString]
      decide +kernel
  | .number (.double (.finite s m q)) =>
      have htext : (Found.number (.double (.finite s m q))).text =
        "floating point \x60" ++ (Binary64.finite s m q).text Binary64.exchange ++ "\x60" := rfl
      simp only [htext, String.toList_append, List.filter_append,
        filter_text (x := .finite s m q) rfl]
      decide +kernel
  | .number (.double (.infinite true)) | .number (.double (.infinite false))
  | .number (.double .nan) => decide +kernel
  | .string s => exact absurd rfl (hf s)

/-- Only fields that the item does not have are called missing. -/
def Truthful (item : Item) (v : SchemaViolation) : Prop :=
  ∀ i ∈ v.issues, i.rule = "required" → NameMap.get? item i.field = none

theorem truthful_ofCodecError_iff {item : Item} {e : CodecError} :
    (ofCodecError e).Truthful item ↔
      ∀ f, reportedMissing? e.message = some f → NameMap.get? item f = none := by
  rw [ofCodecError]
  cases reportedMissing? e.message with
  | none => simp [Truthful, invalid]
  | some f => simp [Truthful, missingField, Issue.missing]

end SchemaViolation

/-! ## Reading a record -/

/-- Reading the item stops at a number whose text reports a missing field, and the item has an
attribute of that name.  Where several numbers cannot be read, the order of the attributes decides
which one is met first; attributes may be handed out in any order, so the item here is any list of
them, and what is said of it is said for each order. -/
def Item.Forged (item : Item) : Prop :=
  ∃ t f, item.toPlain = .error (.invalidNumber t) ∧
    SchemaViolation.reportedMissing? t = some f ∧ (NameMap.get? item f).isSome = true

/-- A field without a member is missing, or some member is no string. -/
inductive DecodeError.OfRecord (ms : List (String × Json)) : DecodeError → Prop
  | missing {name : String} : '\x60' ∉ name.toList → Json.member? ms name = none →
      OfRecord ms (.missingField name)
  | mismatch {f : Found} : (∀ s, f ≠ .string s) → OfRecord ms (.invalidType f "a string")

section Decoding

open Decode (Field Members)

variable {ms : List (String × Json)} {e : DecodeError} {name : String} {j : Json}

theorem Decoder.ofRecord_of_string (h : Decoder.string j = .error e) : e.OfRecord ms := by
  cases j with
  | string s => cases h
  | _ =>
      cases h
      exact .mismatch nofun

namespace Decode.Members

theorem exists_check_eq_error {fields : List Field} (h : check fields ms = .error e) :
    ∃ j, ∃ f ∈ fields, f.check j = .error e := by
  induction ms with
  | nil => cases h
  | cons m ms ih =>
      rw [check] at h
      split at h
      next f hf =>
          rcases bind_eq_error_iff.mp h with h | ⟨_, -, h⟩
          · exact ⟨m.2, f, List.mem_of_find?_eq_some hf, h⟩
          · exact ih h
      next => exact ih h

theorem ofRecord_of_read {record : String} {fields : List Field}
    (hfields : ∀ f ∈ fields, ∀ j, f.check j = (Decoder.string j).map fun _ => ())
    (h : read record fields (.object ms) = .error e) : e.OfRecord ms := by
  rcases bind_eq_error_iff.mp h with h | ⟨_, -, h⟩
  · obtain ⟨j, f, hf, hcheck⟩ := exists_check_eq_error h
    rw [hfields f hf] at hcheck
    exact Decoder.ofRecord_of_string (map_eq_error_iff.mp hcheck)
  · cases h

theorem eq_of_read {record : String} {fields : List Field} {members : Members}
    (h : read record fields (.object ms) = .ok members) : members = ms := by
  obtain ⟨_, -, h⟩ := bind_eq_ok_iff.mp h
  cases h
  rfl

theorem ofRecord_of_required (hname : '\x60' ∉ name.toList)
    (h : required ms name Decoder.string = .error e) : e.OfRecord ms := by
  rw [required] at h
  split at h
  next hnone =>
      cases h
      exact .missing hname hnone
  next => exact Decoder.ofRecord_of_string h

/-- The fields are read one after another. -/
theorem ofRecord_of_required_bind {α : Type} {next : String → Except DecodeError α}
    (hname : '\x60' ∉ name.toList)
    (h : (required ms name Decoder.string >>= next) = .error e)
    (hnext : ∀ s, next s = .error e → e.OfRecord ms) : e.OfRecord ms := by
  rcases bind_eq_error_iff.mp h with h | ⟨s, -, h⟩
  · exact ofRecord_of_required hname h
  · exact hnext s h

theorem ofRecord_of_defaulted {default : String}
    (h : defaulted ms name default Decoder.string = .error e) : e.OfRecord ms := by
  rw [defaulted] at h
  split at h
  next => cases h
  next => exact Decoder.ofRecord_of_string h

end Decode.Members

end Decoding

/-! ## Reading an item -/

namespace Item

variable {item : Item} {α : Type} {d : Decoder α} {e : CodecError}

/-- Of an item that is read, the members are the attributes. -/
theorem get?_eq_none_of_member? {ms : List (String × Json)} {name : String}
    (hplain : item.toPlain = .ok (.object ms)) (h : Json.member? ms name = none) :
    NameMap.get? item name = none := by
  obtain ⟨_, hms, ⟨⟩⟩ := map_eq_ok_iff.mp hplain
  rw [Option.eq_none_iff_forall_ne_some]
  intro v hv
  have hnames : item.map (·.1) = ms.map (·.1) := by
    simpa [Function.comp_def] using
      congrArg (List.map (·.1)) (Value.toPlainEntries_eq_ok_iff.mp hms)
  have hmem : name ∈ ms.map (·.1) := hnames ▸ List.mem_map_of_mem (NameMap.mem_of_get? hv)
  obtain ⟨m, hm, rfl⟩ := List.mem_map.mp hmem
  rw [Json.member?, Option.map_eq_none_iff, List.find?_eq_none] at h
  exact h m (List.mem_reverse.mpr hm) (beq_self_eq_true m.1)

theorem decode_eq_error_iff : decode d item = .error e ↔ item.toPlain = .error e ∨
    ∃ ms f, item.toPlain = .ok (.object ms) ∧ d (.object ms) = .error f ∧ e = .decode f := by
  rw [decode, bind_eq_error_iff]
  refine or_congr_right ⟨?_, ?_⟩
  · rintro ⟨j, hj, h⟩
    obtain ⟨ms, -, rfl⟩ := map_eq_ok_iff.mp hj
    obtain ⟨f, hf, rfl⟩ := mapError_eq_error_iff.mp h
    exact ⟨ms, f, hj, hf, rfl⟩
  · rintro ⟨ms, f, hms, hf, rfl⟩
    exact ⟨_, hms, mapError_eq_error_iff.mpr ⟨f, hf, rfl⟩⟩

/-- What a reader of records says of an item is true of it, unless the text of a number says
otherwise. -/
theorem truthful_decode_iff (hd : ∀ ms e, d (.object ms) = .error e → e.OfRecord ms) :
    (∀ e, decode d item = .error e → (SchemaViolation.ofCodecError e).Truthful item) ↔
      ¬ item.Forged := by
  simp only [SchemaViolation.truthful_ofCodecError_iff]
  constructor
  · rintro h ⟨t, f, hplain, hreport, hsome⟩
    have hnone := h _ (decode_eq_error_iff.mpr (Or.inl hplain)) f
      ((SchemaViolation.reportedMissing?_invalidNumber t).trans hreport)
    rw [hnone] at hsome
    cases hsome
  · intro h e hdecode f hreport
    rcases decode_eq_error_iff.mp hdecode with hplain | ⟨ms, e, hplain, he, rfl⟩
    · obtain ⟨t, -, -, rfl⟩ := Value.exists_number_of_error (v := .map item) hplain
      rw [SchemaViolation.reportedMissing?_invalidNumber] at hreport
      by_contra hsome
      exact h ⟨t, f, hplain, hreport, Option.isSome_iff_ne_none.mpr hsome⟩
    · cases hd ms e he with
      | missing hname hmember =>
          rw [SchemaViolation.reportedMissing?_missingField hname] at hreport
          cases hreport
          exact get?_eq_none_of_member? hplain hmember
      | mismatch hf =>
          rw [SchemaViolation.reportedMissing?_mismatch hf] at hreport
          cases hreport

end Item

/-! ## Posts and comments -/

namespace Issues

variable {is : Issues}

theorem require_some {α : Type} (is : Issues) (field : String) (v : α) :
    is.require field (some v) = is := rfl

/-- A check of another rule adds no issue of the rule. -/
theorem rule_ne_check {kept : Bool} {field rule message other : String}
    (h : ∀ i ∈ is, i.rule ≠ other) (hrule : rule ≠ other) :
    ∀ i ∈ is.check kept field rule message, i.rule ≠ other := by
  rw [check]
  split
  next => exact h
  next =>
      intro i hi
      rcases List.mem_append.mp hi with hi | hi
      · exact h i hi
      · rw [List.mem_singleton.mp hi]
        exact hrule

theorem finish_eq_error {α : Type} {v : α} {e : SchemaViolation} (h : is.finish v = .error e) :
    e = ⟨is⟩ := by
  rw [finish] at h
  split at h <;> cases h
  rfl

end Issues

section Parsing

variable {R Out : Type} {parse : Item → Except SchemaViolation Out} {d : Decoder R}

/-- Parsing takes an item apart with the reader of a record, and then finds no field missing. -/
structure Parses (parse : Item → Except SchemaViolation Out) (d : Decoder R) : Prop where
  ofRecord : ∀ ms e, d (.object ms) = .error e → e.OfRecord ms
  ofDecode : ∀ {item e}, Item.decode d item = .error e → parse item = .error (.ofCodecError e)
  checked : ∀ {item v}, parse item = .error v →
    (∃ e, Item.decode d item = .error e ∧ v = .ofCodecError e) ∨
      ∀ i ∈ v.issues, i.rule ≠ "required"

theorem parses_bind {next : R → Except SchemaViolation Out}
    (hd : ∀ ms e, d (.object ms) = .error e → e.OfRecord ms)
    (hnext : ∀ r v, next r = .error v → ∀ i ∈ v.issues, i.rule ≠ "required") :
    Parses (fun item => (Item.decode d item).mapError .ofCodecError >>= next) d where
  ofRecord := hd
  ofDecode h := bind_eq_error_iff.mpr (Or.inl (mapError_eq_error_iff.mpr ⟨_, h, rfl⟩))
  checked := by
    intro item v h
    rcases bind_eq_error_iff.mp h with h | ⟨r, -, h⟩
    · obtain ⟨e, he, rfl⟩ := mapError_eq_error_iff.mp h
      exact Or.inl ⟨e, he, rfl⟩
    · exact Or.inr (hnext r v h)

theorem Parses.truthful_iff (h : Parses parse d) {item : Item} :
    (∀ v, parse item = .error v → v.Truthful item) ↔ ¬ item.Forged := by
  rw [← Item.truthful_decode_iff h.ofRecord]
  constructor
  · intro htruthful e he
    exact htruthful _ (h.ofDecode he)
  · intro htruthful v hv
    rcases h.checked hv with ⟨e, he, rfl⟩ | hrules
    · exact htruthful e he
    · intro i hi hrule
      exact absurd hrule (hrules i hi)

end Parsing

namespace Blog

open Decode (Field Members)

namespace Post

theorem ofRecord_of_ofJson (ms : List (String × Json)) (e : DecodeError)
    (h : PostRecord.ofJson (.object ms) = .error e) : e.OfRecord ms := by
  rcases bind_eq_error_iff.mp h with h | ⟨members, hmembers, hfields⟩
  · refine Members.ofRecord_of_read (fun f hf j => ?_) h
    simp only [PostRecord.fields, List.mem_cons, List.not_mem_nil, or_false] at hf
    rcases hf with rfl | rfl | rfl | rfl <;> rfl
  obtain rfl := Members.eq_of_read hmembers
  refine Members.ofRecord_of_required_bind (by simp) hfields fun _ hfields => ?_
  refine Members.ofRecord_of_required_bind (by simp) hfields fun _ hfields => ?_
  refine Members.ofRecord_of_required_bind (by simp) hfields fun _ hfields => ?_
  rcases bind_eq_error_iff.mp hfields with h | ⟨_, -, hfields⟩
  · exact Members.ofRecord_of_defaulted h
  · cases hfields

/-- Where there is a title, no field is missing. -/
theorem rule_ne_of_validate {fresh title : String} {d : PostDraft} {v : SchemaViolation}
    (htitle : d.title = some title) (h : validate fresh d = .error v) :
    ∀ i ∈ v.issues, i.rule ≠ "required" := by
  rw [validate, htitle, Issues.require_some] at h
  rw [Issues.finish_eq_error h]
  refine Issues.rule_ne_check (Issues.rule_ne_check (Issues.rule_ne_check ?_ ?_) ?_) ?_ <;> simp

theorem parses : Parses parse PostRecord.ofJson := by
  refine parses_bind ofRecord_of_ofJson fun record v h => ?_
  split at h
  next =>
      cases h
      simp [SchemaViolation.invalid]
  next => exact rule_ne_of_validate rfl h

end Post

namespace Comment

theorem ofRecord_of_ofJson (ms : List (String × Json)) (e : DecodeError)
    (h : CommentRecord.ofJson (.object ms) = .error e) : e.OfRecord ms := by
  rcases bind_eq_error_iff.mp h with h | ⟨members, hmembers, hfields⟩
  · refine Members.ofRecord_of_read (fun f hf j => ?_) h
    simp only [CommentRecord.fields, List.mem_cons, List.not_mem_nil, or_false] at hf
    rcases hf with rfl | rfl | rfl | rfl <;> rfl
  obtain rfl := Members.eq_of_read hmembers
  refine Members.ofRecord_of_required_bind (by simp) hfields fun _ hfields => ?_
  refine Members.ofRecord_of_required_bind (by simp) hfields fun _ hfields => ?_
  refine Members.ofRecord_of_required_bind (by simp) hfields fun _ hfields => ?_
  refine Members.ofRecord_of_required_bind (by simp) hfields fun _ hfields => ?_
  cases hfields

/-- Where the draft is complete, no field is missing. -/
theorem rule_ne_of_validate {fresh postId author body : String} {id : Option String}
    {v : SchemaViolation}
    (h : validate fresh ⟨some postId, id, some author, some body⟩ = .error v) :
    ∀ i ∈ v.issues, i.rule ≠ "required" := by
  rw [validate, Issues.require_some, Issues.require_some, Issues.require_some] at h
  rw [Issues.finish_eq_error h]
  refine Issues.rule_ne_check ?_ ?_ <;> simp

theorem parses : Parses parse CommentRecord.ofJson := by
  refine parses_bind ofRecord_of_ofJson fun record v h => ?_
  split at h
  next =>
      cases h
      simp [SchemaViolation.invalid]
  next => exact rule_ne_of_validate h

end Comment

/-- Whether posts and comments are told truly which fields they miss.  All that parsing calls
missing is missing, unless the item is forged: reading it stops at a number whose text reports a
missing field that the item has, and then parsing repeats the report.  An item all of whose numbers
can be read, at any depth, is not forged. -/
theorem required_truthful_iff (item : Item) :
    ((∀ v, Post.parse item = .error v → v.Truthful item) ↔ ¬ item.Forged) ∧
    ((∀ v, Comment.parse item = .error v → v.Truthful item) ↔ ¬ item.Forged) ∧
    (item.Forged → ∃ t, (Value.map item).HoldsNumber t ∧ ¬ Json.Number.Readable t) := by
  refine ⟨Post.parses.truthful_iff, Comment.parses.truthful_iff, ?_⟩
  rintro ⟨t, f, hplain, -, -⟩
  obtain ⟨u, hu, hbad, -⟩ := Value.exists_number_of_error (v := .map item) hplain
  exact ⟨u, hu, hbad⟩

/-- A post with a title, and with a number that is none and reports that there is no title. -/
theorem required_not_truthful :
    ¬ ∀ (item : Item) (v : SchemaViolation) (i : Issue),
      Post.parse item = .error v ∨ Comment.parse item = .error v → i ∈ v.issues →
      i.rule = "required" → NameMap.get? item i.field = none := by
  intro h
  let item : Item := [("pk", .string "p"), ("rank", .number "missing field \x60title\x60"),
    ("sk", .string "post"), ("title", .string "t")]
  have hparse : Post.parse item = .error (.missingField "title") := by decide +kernel
  have hnone := h item _ (.missing "title") (Or.inl hparse) List.mem_cons_self rfl
  cases hnone

end Blog

end ItemStore
