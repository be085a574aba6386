import ItemStore.Proofs.Token

/-!
# Texts are made of their tokens

`Token.Written ts cs` says, without the reader, how characters are made of tokens: these stand one
after another, each ends where the next one begins, and white space may stand anywhere between.  A
text is read as tokens exactly if it is written in them (`ofText_eq_ok_iff`), so the tokens have all
its characters but the white space.  Reading goes on up to the first fault (`scan_cases`): what
stands before the fault is written in tokens, which is why no fault is missed and an unexpected
character is the leftmost of its kind.
-/

namespace ItemStore.Token

variable {cs ds : List Char} {ts us : List Token} {c : Char} {t : Token} {text : String}
  {e : ExpressionError}

/-- The characters are the tokens one after another, with any white space. -/
inductive Written : List Token → List Char → Prop
  | nil : Written [] []
  | blank {ts : List Token} {c : Char} {cs : List Char} : Text.isAsciiBlank c = true →
      Written ts cs → Written ts (c :: cs)
  | token {t : Token} {ts : List Token} {cs : List Char} : t.WellFormed → t.EndsBefore cs →
      Written ts cs → Written (t :: ts) (t.text.toList ++ cs)

/-- The characters are the texts of the tokens, joined by white space that is not empty. -/
inductive Joined : List Token → List Char → Prop
  | nil : Joined [] []
  | single {t : Token} : t.WellFormed → Joined [t] t.text.toList
  | cons {t u : Token} {ts : List Token} {gap cs : List Char} : t.WellFormed → gap ≠ [] →
      (∀ c ∈ gap, Text.isAsciiBlank c = true) → Joined (u :: ts) cs →
      Joined (t :: u :: ts) (t.text.toList ++ (gap ++ cs))

/-- The character is white space, or begins a token or a fault in place of one. -/
def Admitted (c : Char) : Prop := Text.isAsciiBlank c = true ∨ Begins c

/-! ## Written tokens -/

theorem Written.gap {gap : List Char} (hgap : ∀ c ∈ gap, Text.isAsciiBlank c = true)
    (h : Written ts cs) : Written ts (gap ++ cs) := by
  induction gap with
  | nil => exact h
  | cons c gap ih =>
      obtain ⟨hc, hgap⟩ := List.forall_mem_cons.mp hgap
      exact (ih hgap).blank hc

theorem Joined.written (h : Joined ts cs) : Written ts cs := by
  induction h with
  | nil => exact .nil
  | @single t ht =>
      have hwritten : Written [t] (t.text.toList ++ []) := .token ht (endsBefore_nil t) .nil
      rwa [List.append_nil] at hwritten
  | @cons t u ts gap cs ht hne hgap _ ih =>
      refine .token ht ?_ (ih.gap hgap)
      cases gap with
      | nil => exact absurd rfl hne
      | cons c gap =>
          exact endsBefore_cons (goesOn_of_isAsciiBlank t (hgap c List.mem_cons_self))

theorem Written.reads (h : Written ts cs) : Reads cs ts := by
  induction h with
  | nil => exact reads_nil
  | blank hc _ ih => exact ih.blank hc
  | token ht hend _ ih => exact ih.append ht hend

theorem Written.admitted (h : Written ts cs) : ∀ c ∈ cs, Admitted c := by
  induction h with
  | nil => exact nofun
  | blank hc _ ih => exact List.forall_mem_cons.mpr ⟨Or.inl hc, ih⟩
  | token ht _ _ ih =>
      refine List.forall_mem_append.mpr ⟨?_, ih⟩
      intro c hc
      exact Or.inr (ht.begins c hc)

/-- The tokens have all characters but the white space. -/
theorem Written.flatMap_text (h : Written ts cs) :
    (ts.flatMap fun t => t.text.toList) = cs.filter fun c => !Text.isAsciiBlank c := by
  induction h with
  | nil => rfl
  | blank hc _ ih =>
      rw [ih, List.filter_cons_of_neg]
      simpa using hc
  | @token t ts cs ht _ _ ih =>
      have hself : (t.text.toList.filter fun c => !Text.isAsciiBlank c) = t.text.toList := by
        refine List.filter_eq_self.mpr ?_
        intro c hc
        rw [(ht.begins c hc).not_isAsciiBlank]
        rfl
      rw [List.flatMap_cons, ih, List.filter_append, hself]

/-! ## Reading -/

/-- Reading takes in all characters, or goes on up to the first fault. -/
theorem scan_cases (total : Nat) {fuel : Nat} (hfuel : cs.length ≤ fuel) :
    (∃ ts, Written ts cs ∧ scan total fuel cs = .ok (ts ++ [eof])) ∨
    ∃ ts before rest e, cs = before ++ rest ∧ Written ts before ∧ Fault total rest e ∧
      (∀ c ∈ rest.head?, Text.isAsciiBlank c = false) ∧ scan total fuel cs = .error e := by
  fun_induction scan total fuel cs with
  | case1 cs =>
      obtain rfl := List.length_eq_zero_iff.mp (Nat.le_zero.mp hfuel)
      exact Or.inl ⟨[], .nil, rfl⟩
  | case2 => exact Or.inl ⟨[], .nil, rfl⟩
  | case3 fuel c cs hc ih =>
      rcases ih (Nat.le_of_succ_le_succ hfuel) with
        ⟨ts, hts, hscan⟩ | ⟨ts, before, rest, e, rfl, hts, hfault, hscan⟩
      · exact Or.inl ⟨ts, hts.blank hc, hscan⟩
      · exact Or.inr ⟨ts, c :: before, rest, e, rfl, hts.blank hc, hfault, hscan⟩
  | case4 fuel c cs hc ih =>
      rcases next_cases total c cs with ⟨t, ds, ht, hend, htext, hnext⟩ | ⟨e, hfault, hnext⟩
      · have hlength : ds.length ≤ fuel := by
          obtain ⟨d, l, hl⟩ := ht.exists_cons
          have hcount := congrArg List.length htext
          simp only [hl, List.length_cons, List.length_append] at hcount hfuel
          omega
        rw [hnext]
        rcases ih ds hlength with
          ⟨ts, hts, hscan⟩ | ⟨ts, before, rest, e, rfl, hts, hfault, hhead, hscan⟩
        · refine Or.inl ⟨t :: ts, htext ▸ .token ht hend hts, ?_⟩
          show (scan total fuel ds).bind _ = _
          rw [hscan]
          rfl
        · refine Or.inr ⟨t :: ts, t.text.toList ++ before, rest, e, ?_,
            .token ht hend.of_append hts, hfault, hhead, ?_⟩
          · rw [htext, List.append_assoc]
          · show (scan total fuel (before ++ rest)).bind _ = _
            rw [hscan]
            rfl
      · refine Or.inr ⟨[], [], c :: cs, e, rfl, .nil, hfault, ?_, ?_⟩
        · intro d hd
          cases hd
          simpa using hc
        · rw [hnext]
          rfl

theorem byteCount_append (cs ds : List Char) :
    byteCount (cs ++ ds) = byteCount cs + byteCount ds := by
  induction cs with
  | nil => exact (Nat.zero_add _).symm
  | cons c cs ih => rw [List.cons_append, byteCount, byteCount, ih, Nat.add_assoc]

theorem byteCount_eq (cs : List Char) : byteCount cs = (String.ofList cs).utf8ByteSize := by
  induction cs with
  | nil => rfl
  | cons c cs ih =>
      rw [byteCount, ih, String.ofList_cons, String.utf8ByteSize_append,
        String.utf8ByteSize_singleton]

/-- A text is read as tokens exactly if it is written in them. -/
theorem ofText_eq_ok_iff :
    ofText text = .ok us ↔ ∃ ts, us = ts ++ [eof] ∧ Written ts text.toList := by
  constructor
  · intro h
    rcases scan_cases (byteCount text.toList) (Nat.le_refl text.toList.length) with
      ⟨ts, hts, hscan⟩ | ⟨_, _, _, e, -, -, -, -, hscan⟩
    · exact ⟨ts, Except.ok.inj (h.symm.trans hscan), hts⟩
    · cases h.symm.trans hscan
  · rintro ⟨ts, rfl, hts⟩
    exact ofText_of_reads hts.reads

/-- A text that is not read has a first fault. -/
theorem fault_of_ofText (h : ofText text = .error e) :
    ∃ ts before rest, text.toList = before ++ rest ∧ Written ts before ∧
      Fault (byteCount text.toList) rest e ∧
      ∀ c ∈ rest.head?, Text.isAsciiBlank c = false := by
  rcases scan_cases (byteCount text.toList) (Nat.le_refl text.toList.length) with
    ⟨ts, -, hscan⟩ | ⟨ts, before, rest, e', htext, hts, hfault, hhead, hscan⟩
  · cases h.symm.trans hscan
  · cases h.symm.trans hscan
    exact ⟨ts, before, rest, htext, hts, hfault, hhead⟩

/-- Reading the tokens of a text loses nothing of it and points at the right place.

The texts of tokens that are joined by white space are read as these tokens.  The texts of all
tokens that are read are together the text without its white space.  An unexpected character stands
at its offset in bytes, and is the first one that is no white space, stands in no words and begins
no mark.  Every other failure is that of a colon without a name after it. -/
theorem ofText_keeps_text (text : String) :
    (∀ ts, Joined ts text.toList → ofText text = .ok (ts ++ [eof])) ∧
    (∀ us, ofText text = .ok us → String.join (us.map Token.text) =
      String.ofList (text.toList.filter fun c => !Text.isAsciiBlank c)) ∧
    (∀ found offset, ofText text = .error (.unexpectedChar found offset) →
      ∃ before after, text = before ++ String.singleton found ++ after ∧
        before.utf8ByteSize = offset ∧ (∀ c ∈ before.toList, Admitted c) ∧ ¬ Admitted found) ∧
    (∀ e, ofText text = .error e → (∀ found offset, e ≠ .unexpectedChar found offset) →
      e = .unexpectedToken .parameterName none ∧
      ∃ before after, text = before ++ ":" ++ after ∧ (∀ c ∈ before.toList, Admitted c) ∧
        Boundary after.toList) := by
  refine ⟨?joined, ?kept, ?offset, ?colon⟩
  case joined =>
    intro ts h
    exact ofText_eq_ok_iff.mpr ⟨ts, rfl, h.written⟩
  case kept =>
    intro us h
    obtain ⟨ts, rfl, hts⟩ := ofText_eq_ok_iff.mp h
    apply String.toList_injective
    simpa [Token.text, List.flatMap_map] using hts.flatMap_text
  case offset =>
    intro found offset h
    obtain ⟨ts, before, rest, htext, hts, hfault, hhead⟩ := fault_of_ofText h
    cases hfault with
    | @unknown _ after hbegins =>
        refine ⟨String.ofList before, String.ofList after, ?_, ?_, ?_, ?_⟩
        · apply String.toList_injective
          simp [htext]
        · rw [← byteCount_eq, htext, byteCount_append, Nat.add_sub_cancel]
        · rw [String.toList_ofList]
          exact hts.admitted
        · rintro (hblank | hfound)
          · rw [hhead found rfl] at hblank
            cases hblank
          · exact hbegins hfound
  case colon =>
    intro e h hother
    obtain ⟨ts, before, rest, htext, hts, hfault, -⟩ := fault_of_ofText h
    cases hfault with
    | unknown => exact absurd rfl (hother _ _)
    | @unnamed after hafter =>
        refine ⟨rfl, String.ofList before, String.ofList after, ?_, ?_, ?_⟩
        · apply String.toList_injective
          simp [htext]
        · rw [String.toList_ofList]
          exact hts.admitted
        · rwa [String.toList_ofList]

/-- Two comparisons that would be one without the white space, a character of two bytes, and a colon
that comes before such a character. -/
theorem ofText_keeps_text_spaced :
    ofText "<\t= \n:a1 AND" =
      .ok [.comparison .lt, .comparison .eq, .param ":a1", .word "AND", .eof] ∧
    String.join ([comparison .lt, comparison .eq, param ":a1", word "AND", eof].map Token.text) =
      "<=:a1AND" ∧
    (∃ before after, "x>=:y é<ü" = before ++ "é" ++ after ∧ before.utf8ByteSize = 6) ∧
    ∃ before after, "x =: é" = before ++ ":" ++ after ∧ Boundary after.toList := by
  have hand : Joined [word "AND"] "AND".toList :=
    .single (show IsWord "AND" by decide)
  have hparam : Joined [param ":a1", word "AND"] ":a1 AND".toList :=
    @Joined.cons _ _ _ [' '] _ ⟨"a1", by decide, rfl⟩ (List.cons_ne_nil _ _)
      (by simp [Text.isAsciiBlank]) hand
  have heq : Joined [comparison .eq, param ":a1", word "AND"] "= \n:a1 AND".toList :=
    @Joined.cons _ _ _ [' ', '\n'] _ trivial (List.cons_ne_nil _ _)
      (by simp [Text.isAsciiBlank]) hparam
  have hlt : Joined [comparison .lt, comparison .eq, param ":a1", word "AND"]
      "<\t= \n:a1 AND".toList :=
    @Joined.cons _ _ _ ['\t'] _ trivial (List.cons_ne_nil _ _)
      (by simp [Text.isAsciiBlank]) heq
  obtain ⟨hjoined, hkept, -, -⟩ := ofText_keeps_text "<\t= \n:a1 AND"
  obtain ⟨-, -, hoffset, -⟩ := ofText_keeps_text "x>=:y é<ü"
  obtain ⟨-, -, -, hcolon⟩ := ofText_keeps_text "x =: é"
  have hread := hjoined _ hlt
  obtain ⟨before, after, hfound, hbytes, -⟩ := hoffset 'é' 6 (by decide +kernel)
  obtain ⟨-, before', after', hunnamed, -, hafter⟩ :=
    hcolon (.unexpectedToken .parameterName none) (by decide +kernel) fun _ _ h => by cases h
  exact ⟨hread, hkept _ hread, ⟨before, after, hfound, hbytes⟩, before', after', hunnamed, hafter⟩

end ItemStore.Token
