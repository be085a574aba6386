import ItemStore.Condition.Token
import ItemStore.Proofs.Result

/-!
# Texts and their tokens

`Token.WellFormed` says which tokens stand in texts, and `Token.EndsBefore` where such a token
ends: a word or a parameter takes in all characters of words, and a comparison a second character
that it can have; every other token ends by itself.  A step of the reader cuts off just such a
token, or meets a `Fault` (`next_cases`).

`Token.Reads cs ts` says that the characters are read as the tokens, whatever the fuel is as long
as there is enough of it.  Any token can be put in front of a text that is read, where it ends there
(`Reads.append`).  All tokens of a text are well-formed (`ofText_sound`), and any list of
well-formed tokens is read from some text (`ofText_textOf`).
-/

namespace ItemStore.Token

/-- A word that stands before the characters ends there. -/
def Boundary (cs : List Char) : Prop := ∀ c ∈ cs.head?, isWordChar c = false

variable {cs ds : List Char} {ts us : List Token} {c : Char} {t : Token}

theorem boundary_nil : Boundary [] := by
  intro c hc
  cases hc

theorem boundary_cons (h : isWordChar c = false) : Boundary (c :: cs) := by
  intro d hd
  cases hd
  exact h

/-! ## Words -/

theorem takeWhile_word {w : List Char} (hw : ∀ c ∈ w, isWordChar c = true) (hcs : Boundary cs) :
    (w ++ cs).takeWhile isWordChar = w := by
  rw [List.takeWhile_append_of_pos hw]
  cases cs with
  | nil => exact List.append_nil w
  | cons c cs =>
      rw [List.takeWhile_cons_of_neg (by simpa using hcs c rfl), List.append_nil]

theorem dropWhile_word {w : List Char} (hw : ∀ c ∈ w, isWordChar c = true) (hcs : Boundary cs) :
    (w ++ cs).dropWhile isWordChar = cs := by
  rw [List.dropWhile_append_of_pos hw]
  cases cs with
  | nil => rfl
  | cons c cs => exact List.dropWhile_cons_of_neg (by simpa using hcs c rfl)

/-- A character that stands in words stands for nothing else. -/
theorem ne_of_isWordChar {d : Char} (hc : isWordChar c = true) (hd : isWordChar d = false) :
    (c == d) = false := by
  refine beq_false_of_ne ?_
  intro heq
  rw [heq, hd] at hc
  cases hc

theorem toNat_of_isWordChar (hc : isWordChar c = true) :
    48 ≤ c.toNat ∧ c.toNat ≤ 57 ∨ 65 ≤ c.toNat ∧ c.toNat ≤ 122 := by
  change ((decide ('A'.val ≤ c.val ∧ c.val ≤ 'Z'.val) ||
    decide ('a'.val ≤ c.val) && decide (c.val ≤ 'z'.val)) ||
      decide ('0'.val ≤ c.val) && decide (c.val ≤ '9'.val) || c == '_') = true at hc
  simp only [Bool.or_eq_true, Bool.and_eq_true, decide_eq_true_eq, beq_iff_eq,
    UInt32.le_iff_toNat_le] at hc
  change ((65 ≤ c.toNat ∧ c.toNat ≤ 90 ∨ 97 ≤ c.toNat ∧ c.toNat ≤ 122) ∨
    48 ≤ c.toNat ∧ c.toNat ≤ 57) ∨ c = '_' at hc
  rcases hc with hc | rfl
  · omega
  · decide

theorem not_isBlank_of_isWordChar (hc : isWordChar c = true) : Text.isBlank c = false := by
  have hrange := toNat_of_isWordChar hc
  simp only [Text.isBlank, Bool.or_eq_false_iff, Bool.and_eq_false_iff, decide_eq_false_iff_not,
    beq_eq_false_iff_ne]
  omega

theorem isWordChar_takeWhile (ds : List Char) :
    ∀ d ∈ ds.takeWhile isWordChar, isWordChar d = true :=
  List.all_eq_true.mp List.all_takeWhile

theorem boundary_dropWhile (ds : List Char) : Boundary (ds.dropWhile isWordChar) := by
  intro c hc
  have hnot := List.head?_dropWhile_not isWordChar ds
  rw [Option.mem_def.mp hc] at hnot
  exact hnot

theorem boundary_of_takeWhile (h : ds.takeWhile isWordChar = []) : Boundary ds := by
  cases ds with
  | nil => exact boundary_nil
  | cons c ds =>
      refine boundary_cons ?_
      by_contra hc
      rw [List.takeWhile_cons_of_pos (by simpa using hc)] at h
      cases h

/-! ## Tokens in texts -/

/-- A word has characters, and all of them stand in words. -/
structure IsWord (w : String) : Prop where
  nonempty : w ≠ ""
  isWord : ∀ c ∈ w.toList, isWordChar c = true

instance (w : String) : Decidable (IsWord w) :=
  decidable_of_iff (w ≠ "" ∧ w.toList.all isWordChar = true)
    ⟨fun ⟨hne, hw⟩ => ⟨hne, List.all_eq_true.mp hw⟩,
      fun ⟨hne, hw⟩ => ⟨hne, List.all_eq_true.mpr hw⟩⟩

/-- Whether the token can stand in a text. -/
def WellFormed : Token → Prop
  | word w => IsWord w
  | param name => ∃ w, IsWord w ∧ name = ":" ++ w
  | eof => False
  | _ => True

/-- The token takes in the character when it stands right before it. -/
def goesOn : Token → Char → Bool
  | word _, c | param _, c => isWordChar c
  | comparison .lt, c => c == '=' || c == '>'
  | comparison .gt, c => c == '='
  | _, _ => false

/-- The token ends where the characters begin. -/
def EndsBefore (t : Token) (cs : List Char) : Prop := ∀ c ∈ cs.head?, t.goesOn c = false

/-- The characters that are marks, or begin them. -/
def marks : List Char := ['(', ')', ',', '.', '=', '<', '>', ':']

/-- The character begins a token, or a fault in place of one. -/
def Begins (c : Char) : Prop := isWordChar c = true ∨ c ∈ marks

/-- What ends the reading where it comes to the characters: a colon without a name after it, or a
character that begins nothing.  The characters are the last ones of a text of `total` bytes. -/
inductive Fault (total : Nat) : List Char → ExpressionError → Prop
  | unnamed {ds : List Char} : Boundary ds →
      Fault total (':' :: ds) (.unexpectedToken .parameterName none)
  | unknown {c : Char} {ds : List Char} : ¬ Begins c →
      Fault total (c :: ds) (.unexpectedChar c (total - byteCount (c :: ds)))

theorem endsBefore_nil (t : Token) : t.EndsBefore [] := by
  intro c hc
  cases hc

theorem endsBefore_cons (h : t.goesOn c = false) : t.EndsBefore (c :: cs) := by
  intro d hd
  cases hd
  exact h

/-- What a token does not go on with is seen by the first character. -/
theorem EndsBefore.of_append (h : t.EndsBefore (cs ++ ds)) : t.EndsBefore cs := by
  cases cs with
  | nil => exact endsBefore_nil t
  | cons c cs => exact endsBefore_cons (h c rfl)

theorem exists_cons_of_not_endsBefore (h : ¬ t.EndsBefore cs) :
    ∃ c ds, cs = c :: ds ∧ t.goesOn c = true := by
  cases cs with
  | nil => exact absurd (endsBefore_nil t) h
  | cons c ds =>
      refine ⟨c, ds, rfl, ?_⟩
      by_contra hc
      exact h (endsBefore_cons (by simpa using hc))

theorem Begins.not_isBlank (h : Begins c) : Text.isBlank c = false := by
  rcases h with hword | hmark
  · exact not_isBlank_of_isWordChar hword
  · simp only [marks, List.mem_cons, List.not_mem_nil, or_false] at hmark
    rcases hmark with rfl | rfl | rfl | rfl | rfl | rfl | rfl | rfl <;> decide

theorem Begins.not_isAsciiBlank (h : Begins c) : Text.isAsciiBlank c = false := by
  have hnot := h.not_isBlank
  by_contra hc
  rw [Text.isBlank_of_isAsciiBlank (by simpa using hc)] at hnot
  cases hnot

theorem begins_of_goesOn (h : t.goesOn c = true) : Begins c := by
  cases t with
  | word w => exact Or.inl h
  | param p => exact Or.inl h
  | comparison op =>
      cases op with
      | lt =>
          simp only [goesOn, Bool.or_eq_true, beq_iff_eq] at h
          rcases h with rfl | rfl
          · exact Or.inr (by decide)
          · exact Or.inr (by decide)
      | gt =>
          simp only [goesOn, beq_iff_eq] at h
          subst h
          exact Or.inr (by decide)
      | _ => cases h
  | _ => cases h

theorem goesOn_of_isAsciiBlank (t : Token) (h : Text.isAsciiBlank c = true) :
    t.goesOn c = false := by
  have hnot : ¬ Begins c := by
    intro hc
    rw [hc.not_isAsciiBlank] at h
    cases h
  by_contra hgoes
  exact hnot (begins_of_goesOn (by simpa using hgoes))

/-- A well-formed token has a text, of characters that begin tokens. -/
theorem WellFormed.exists_cons (h : t.WellFormed) : ∃ c l, t.text.toList = c :: l := by
  cases t with
  | word w =>
      refine List.exists_cons_of_ne_nil ?_
      intro hnil
      exact h.nonempty (String.toList_eq_nil_iff.mp hnil)
  | param p =>
      obtain ⟨w, -, rfl⟩ := h
      exact ⟨':', w.toList, by simp [text]⟩
  | comparison op => cases op <;> exact ⟨_, _, rfl⟩
  | eof => exact h.elim
  | _ => exact ⟨_, _, rfl⟩

theorem WellFormed.begins (h : t.WellFormed) : ∀ c ∈ t.text.toList, Begins c := by
  intro c hc
  cases t with
  | word w => exact Or.inl (h.isWord c hc)
  | param p =>
      obtain ⟨w, hw, rfl⟩ := h
      have hcases : c = ':' ∨ c ∈ w.toList := by simpa [text] using hc
      rcases hcases with rfl | hc
      · exact Or.inr (by decide)
      · exact Or.inl (hw.isWord c hc)
  | eof => exact h.elim
  | comparison op =>
      have hmarks : ∀ d ∈ (comparison op).text.toList, d ∈ marks := by
        cases op <;> simp [text, Comparator.text, marks]
      exact Or.inr (hmarks c hc)
  | leftParen | rightParen | comma | dot =>
      obtain rfl := List.mem_singleton.mp hc
      exact Or.inr (by decide)

/-! ## One step -/

theorem next_word (total : Nat) (hc : isWordChar c = true) (ds : List Char) :
    next total c ds =
      .ok (word (String.ofList (c :: ds.takeWhile isWordChar)), ds.dropWhile isWordChar) := by
  simp only [next, ne_of_isWordChar hc (d := '(') rfl, ne_of_isWordChar hc (d := ')') rfl,
    ne_of_isWordChar hc (d := ',') rfl, ne_of_isWordChar hc (d := '.') rfl,
    ne_of_isWordChar hc (d := '=') rfl, ne_of_isWordChar hc (d := '<') rfl,
    ne_of_isWordChar hc (d := '>') rfl, ne_of_isWordChar hc (d := ':') rfl, hc,
    Bool.false_eq_true, if_false, if_true]

theorem next_param (total : Nat) {ds : List Char} (h : ds.takeWhile isWordChar ≠ []) :
    next total ':' ds =
      .ok (param (String.ofList (':' :: ds.takeWhile isWordChar)), ds.dropWhile isWordChar) := by
  have hne : (ds.takeWhile isWordChar).isEmpty = false := by simpa using h
  show (if (ds.takeWhile isWordChar).isEmpty = true then _ else _) = _
  rw [hne]
  rfl

theorem next_lt (total : Nat) (h : (comparison .lt).EndsBefore ds) :
    next total '<' ds = .ok (.comparison .lt, ds) := by
  cases ds with
  | nil => rfl
  | cons d ds =>
      have hd := h d rfl
      simp only [goesOn, Bool.or_eq_false_iff, beq_eq_false_iff_ne] at hd
      simp [next, hd.1, hd.2]

theorem next_gt (total : Nat) (h : (comparison .gt).EndsBefore ds) :
    next total '>' ds = .ok (.comparison .gt, ds) := by
  cases ds with
  | nil => rfl
  | cons d ds =>
      have hd := h d rfl
      simp only [goesOn, beq_eq_false_iff_ne] at hd
      simp [next, hd]

/-- A token that stands before characters, and ends there, is cut off. -/
theorem next_of_text (total : Nat) {l : List Char} (ht : t.WellFormed) (hend : t.EndsBefore cs)
    (h : t.text.toList = c :: l) : next total c (l ++ cs) = .ok (t, cs) := by
  cases t with
  | word w =>
      have hw : w.toList = c :: l := h
      have hchars : ∀ d ∈ c :: l, isWordChar d = true := hw ▸ ht.isWord
      obtain ⟨hc, hl⟩ := List.forall_mem_cons.mp hchars
      rw [next_word total hc, takeWhile_word hl hend, dropWhile_word hl hend, ← hw,
        String.ofList_toList]
  | param p =>
      obtain ⟨w, hw, rfl⟩ := ht
      have htext : ':' :: w.toList = c :: l := by simpa [text] using h
      obtain ⟨rfl, rfl⟩ := List.cons.inj htext
      have hname : (w.toList ++ cs).takeWhile isWordChar = w.toList :=
        takeWhile_word hw.isWord hend
      have hne : w.toList ≠ [] := fun hnil => hw.nonempty (String.toList_eq_nil_iff.mp hnil)
      rw [next_param total (by rwa [hname]), hname, dropWhile_word hw.isWord hend, ← h,
        String.ofList_toList]
      rfl
  | comparison op =>
      cases op with
      | lt =>
          cases (h : ['<'] = c :: l)
          exact next_lt total hend
      | gt =>
          cases (h : ['>'] = c :: l)
          exact next_gt total hend
      | eq =>
          cases (h : ['='] = c :: l)
          rfl
      | ne =>
          cases (h : ['<', '>'] = c :: l)
          rfl
      | le =>
          cases (h : ['<', '='] = c :: l)
          rfl
      | ge =>
          cases (h : ['>', '='] = c :: l)
          rfl
  | eof => exact ht.elim
  | leftParen =>
      cases (h : ['('] = c :: l)
      rfl
  | rightParen =>
      cases (h : [')'] = c :: l)
      rfl
  | comma =>
      cases (h : [','] = c :: l)
      rfl
  | dot =>
      cases (h : ['.'] = c :: l)
      rfl

theorem next_of_not_begins (total : Nat) (h : ¬ Begins c) (ds : List Char) :
    next total c ds = .error (.unexpectedChar c (total - byteCount (c :: ds))) := by
  simp only [Begins, marks, List.mem_cons, List.not_mem_nil, or_false, not_or,
    Bool.not_eq_true] at h
  obtain ⟨hword, h⟩ := h
  simp [next, h, hword]

/-- A step cuts off a token, or there is a fault. -/
theorem next_cases (total : Nat) (c : Char) (ds : List Char) :
    (∃ t cs, t.WellFormed ∧ t.EndsBefore cs ∧ c :: ds = t.text.toList ++ cs ∧
      next total c ds = .ok (t, cs)) ∨
    ∃ e, Fault total (c :: ds) e ∧ next total c ds = .error e := by
  by_cases hbegins : Begins c
  swap
  · exact Or.inr ⟨_, .unknown hbegins, next_of_not_begins total hbegins ds⟩
  -- What is cut off is told by the token, its text and what comes after it.
  have hcut : ∀ (t : Token) (l cs : List Char), t.text.toList = c :: l → ds = l ++ cs →
      t.WellFormed → t.EndsBefore cs → ∃ t cs, t.WellFormed ∧ t.EndsBefore cs ∧
        c :: ds = t.text.toList ++ cs ∧ next total c ds = .ok (t, cs) := by
    rintro t l cs htext rfl ht hend
    exact ⟨t, cs, ht, hend, by rw [htext]; rfl, next_of_text total ht hend htext⟩
  have hsplit : ds = ds.takeWhile isWordChar ++ ds.dropWhile isWordChar :=
    List.takeWhile_append_dropWhile.symm
  rcases hbegins with hword | hmark
  · refine Or.inl (hcut (.word (String.ofList (c :: ds.takeWhile isWordChar))) _ _ (by simp [text])
      hsplit ⟨by simp, ?_⟩ (boundary_dropWhile ds))
    simpa [hword] using isWordChar_takeWhile ds
  have hends : ∀ {t : Token} {cs : List Char}, t.goesOn = (fun _ => false) → t.EndsBefore cs :=
    fun h c _ => by rw [h]
  simp only [marks, List.mem_cons, List.not_mem_nil, or_false] at hmark
  rcases hmark with rfl | rfl | rfl | rfl | rfl | rfl | rfl | rfl
  · exact Or.inl (hcut .leftParen [] ds rfl rfl trivial (hends rfl))
  · exact Or.inl (hcut .rightParen [] ds rfl rfl trivial (hends rfl))
  · exact Or.inl (hcut .comma [] ds rfl rfl trivial (hends rfl))
  · exact Or.inl (hcut .dot [] ds rfl rfl trivial (hends rfl))
  · exact Or.inl (hcut (.comparison .eq) [] ds rfl rfl trivial (hends rfl))
  · by_cases hgoes : (Token.comparison .lt).EndsBefore ds
    · exact Or.inl (hcut (.comparison .lt) [] ds rfl rfl trivial hgoes)
    · obtain ⟨d, ds, rfl, hd⟩ := exists_cons_of_not_endsBefore hgoes
      simp only [goesOn, Bool.or_eq_true, beq_iff_eq] at hd
      rcases hd with rfl | rfl
      · exact Or.inl (hcut (.comparison .le) ['='] ds rfl rfl trivial (hends rfl))
      · exact Or.inl (hcut (.comparison .ne) ['>'] ds rfl rfl trivial (hends rfl))
  · by_cases hgoes : (Token.comparison .gt).EndsBefore ds
    · exact Or.inl (hcut (.comparison .gt) [] ds rfl rfl trivial hgoes)
    · obtain ⟨d, ds, rfl, hd⟩ := exists_cons_of_not_endsBefore hgoes
      obtain rfl : d = '=' := by simpa [goesOn] using hd
      exact Or.inl (hcut (.comparison .ge) ['='] ds rfl rfl trivial (hends rfl))
  · by_cases hname : ds.takeWhile isWordChar = []
    · refine Or.inr ⟨_, .unnamed (boundary_of_takeWhile hname), ?_⟩
      show (if (ds.takeWhile isWordChar).isEmpty = true then _ else _) = _
      rw [hname]
      rfl
    · refine Or.inl (hcut (.param (":" ++ String.ofList (ds.takeWhile isWordChar))) _ _
        (by simp [text]) hsplit ⟨_, ⟨by simpa using hname, ?_⟩, rfl⟩ (boundary_dropWhile ds))
      simpa using isWordChar_takeWhile ds

/-- A token that is cut off can stand in a text, and what it begins with is not blank. -/
theorem next_sound {total : Nat} (h : next total c ds = .ok (t, cs)) :
    t.WellFormed ∧ Text.isBlank c = false := by
  rcases next_cases total c ds with ⟨t', cs', ht, -, htext, hnext⟩ | ⟨e, -, hnext⟩
  · cases h.symm.trans hnext
    obtain ⟨d, l, hl⟩ := ht.exists_cons
    have hc : c ∈ t.text.toList := by
      rw [hl, List.cons_append] at htext
      rw [hl, (List.cons.inj htext).1]
      exact List.mem_cons_self
    exact ⟨ht, (ht.begins c hc).not_isBlank⟩
  · cases h.symm.trans hnext

/-! ## Reading -/

/-- The characters are read as the tokens. -/
def Reads (cs : List Char) (ts : List Token) : Prop :=
  ∀ total fuel, cs.length ≤ fuel → scan total fuel cs = .ok (ts ++ [eof])

theorem ofText_of_reads {text : String} (h : Reads text.toList ts) :
    ofText text = .ok (ts ++ [eof]) :=
  h _ _ (Nat.le_refl _)

theorem reads_nil : Reads [] [] := by
  intro total fuel _
  cases fuel <;> rfl

theorem Reads.blank (hc : Text.isAsciiBlank c = true) (h : Reads cs ts) : Reads (c :: cs) ts := by
  intro total fuel hfuel
  cases fuel with
  | zero => cases hfuel
  | succ fuel =>
      rw [scan, if_pos hc]
      exact h total fuel (Nat.le_of_succ_le_succ hfuel)

theorem Reads.space (h : Reads cs ts) : Reads (' ' :: cs) ts := h.blank rfl

/-- One token is read, where it ends. -/
theorem Reads.append (ht : t.WellFormed) (hend : t.EndsBefore cs) (h : Reads cs ts) :
    Reads (t.text.toList ++ cs) (t :: ts) := by
  intro total fuel hfuel
  obtain ⟨c, l, hl⟩ := ht.exists_cons
  have hc : Text.isAsciiBlank c = false :=
    (ht.begins c (hl ▸ List.mem_cons_self)).not_isAsciiBlank
  rw [hl, List.cons_append] at hfuel ⊢
  cases fuel with
  | zero => cases hfuel
  | succ fuel =>
      have hle : cs.length ≤ fuel := by
        rw [List.length_cons, List.length_append] at hfuel
        omega
      rw [scan, hc, if_neg Bool.false_ne_true, next_of_text total ht hend hl]
      show (scan total fuel cs).bind _ = _
      rw [h total fuel hle]
      rfl

theorem Reads.leftParen (h : Reads cs ts) : Reads ('(' :: cs) (.leftParen :: ts) :=
  h.append (t := .leftParen) trivial fun _ _ => rfl

theorem Reads.rightParen (h : Reads cs ts) : Reads (')' :: cs) (.rightParen :: ts) :=
  h.append (t := .rightParen) trivial fun _ _ => rfl

theorem Reads.comma (h : Reads cs ts) : Reads (',' :: cs) (.comma :: ts) :=
  h.append (t := .comma) trivial fun _ _ => rfl

/-- Any token is read before a space. -/
theorem Reads.token (ht : t.WellFormed) (h : Reads cs ts) :
    Reads (t.text.toList ++ ' ' :: cs) (t :: ts) :=
  h.space.append ht (endsBefore_cons (goesOn_of_isAsciiBlank t rfl))

/-- A comparison ends at a space. -/
theorem Reads.comparison (op : Comparator) (h : Reads cs ts) :
    Reads (op.text.toList ++ ' ' :: cs) (.comparison op :: ts) :=
  h.token (t := .comparison op) trivial

/-- A word is read where no word goes on. -/
theorem Reads.word {w : String} (hne : w ≠ "") (hw : ∀ c ∈ w.toList, isWordChar c = true)
    (hcs : Boundary cs) (h : Reads cs ts) : Reads (w.toList ++ cs) (.word w :: ts) :=
  h.append (t := .word w) ⟨hne, hw⟩ hcs

/-- A parameter is read where no word goes on. -/
theorem Reads.param {w : String} (hne : w ≠ "") (hw : ∀ c ∈ w.toList, isWordChar c = true)
    (hcs : Boundary cs) (h : Reads cs ts) :
    Reads (':' :: (w.toList ++ cs)) (.param (":" ++ w) :: ts) := by
  have htext : ':' :: (w.toList ++ cs) = (Token.param (":" ++ w)).text.toList ++ cs := by
    simp [text]
  rw [htext]
  exact h.append ⟨w, ⟨hne, hw⟩, rfl⟩ hcs

/-- The tokens of a text can all stand in it, and the end mark comes after them.  Where there are
any, the text is not blank. -/
theorem scan_sound {total fuel : Nat} (h : scan total fuel cs = .ok us) :
    ∃ ts, us = ts ++ [eof] ∧ (∀ t ∈ ts, t.WellFormed) ∧
      (ts ≠ [] → cs.all Text.isBlank = false) := by
  fun_induction scan total fuel cs generalizing us with
  | case1 | case2 =>
      cases h
      exact ⟨[], rfl, nofun, absurd rfl⟩
  | case3 fuel c cs hblank ih =>
      obtain ⟨ts, hus, hts, hne⟩ := ih h
      refine ⟨ts, hus, hts, fun hts => ?_⟩
      rw [List.all_cons, hne hts, Bool.and_false]
  | case4 fuel c cs _ ih =>
      obtain ⟨⟨t, rest⟩, hnext, h⟩ := bind_eq_ok_iff.mp h
      obtain ⟨vs, hscan, h⟩ := bind_eq_ok_iff.mp h
      obtain ⟨ts, hvs, hts, -⟩ := ih rest hscan
      obtain ⟨ht, hc⟩ := next_sound hnext
      cases h
      refine ⟨t :: ts, by rw [hvs]; rfl, List.forall_mem_cons.mpr ⟨ht, hts⟩, fun _ => ?_⟩
      rw [List.all_cons, hc, Bool.false_and]

theorem ofText_sound {text : String} (h : ofText text = .ok us) :
    ∃ ts, us = ts ++ [eof] ∧ (∀ t ∈ ts, t.WellFormed) ∧ (ts ≠ [] → Text.allBlank text = false) :=
  scan_sound h

/-- The tokens as a text, with a space after each. -/
def textOf (ts : List Token) : String := String.join (ts.map fun t => t.text ++ " ")

theorem ofText_textOf (h : ∀ t ∈ ts, t.WellFormed) : ofText (textOf ts) = .ok (ts ++ [eof]) := by
  apply ofText_of_reads
  induction ts with
  | nil => exact reads_nil
  | cons t ts ih =>
      obtain ⟨ht, hts⟩ := List.forall_mem_cons.mp h
      simpa [textOf] using (ih hts).token ht

end ItemStore.Token
