import ItemStore.Criteria
import ItemStore.Proofs.ConditionText

/-!
# Reading the text of criteria back

The text of criteria is read as the conjunction of its clauses: `reads_text` gives the tokens,
`spells_tokens` the condition that they spell.  The `and` inside a range belongs to the range, and
any other one joins two clauses.  Nothing is asked of the names but that they are words and no
keywords; they may name functions, which a word does only before a parenthesis.
-/

namespace ItemStore

/-- A word that can stand for an attribute in a condition. -/
structure Token.Identifier (w : String) : Prop where
  nonempty : w ≠ ""
  isWord : ∀ c ∈ w.toList, Token.isWordChar c = true
  free : Token.isReserved w = false

instance (w : String) : Decidable (Token.Identifier w) :=
  decidable_of_iff
    (w ≠ "" ∧ w.toList.all Token.isWordChar = true ∧ Token.isReserved w = false)
    ⟨fun ⟨hne, hw, hfree⟩ => ⟨hne, List.all_eq_true.mp hw, hfree⟩,
      fun ⟨hne, hw, hfree⟩ => ⟨hne, List.all_eq_true.mpr hw, hfree⟩⟩

namespace Criterion

/-- The tokens of the text of a criterion. -/
def tokens (name : String) : Criterion → List Token
  | equals _ => [.word name, .comparison .eq, .param (":" ++ name)]
  | compare op _ => [.word name, .comparison op.comparator, .param (":" ++ name)]
  | beginsWith _ =>
      [.word "begins_with", .leftParen, .word name, .comma, .param (":" ++ name), .rightParen]
  | between _ _ =>
      [.word name, .word "between", .param (":" ++ (name ++ "min")), .word "and",
        .param (":" ++ (name ++ "max"))]

/-- The condition that the text of a criterion is read as. -/
def condition (name : String) : Criterion → Condition
  | equals _ => .compare (.path [name]) .eq (.param (":" ++ name))
  | compare op _ => .compare (.path [name]) op.comparator (.param (":" ++ name))
  | beginsWith _ => .call .beginsWith [.path [name], .param (":" ++ name)]
  | between _ _ =>
      .between (.path [name]) (.param (":" ++ (name ++ "min"))) (.param (":" ++ (name ++ "max")))

variable {name : String} {cs : List Char} {ts : List Token}

/-! ## The tokens -/

theorem isWord_append {a b : String} (ha : ∀ c ∈ a.toList, Token.isWordChar c = true)
    (hb : ∀ c ∈ b.toList, Token.isWordChar c = true) :
    ∀ c ∈ (a ++ b).toList, Token.isWordChar c = true := by
  intro c hc
  rw [String.toList_append] at hc
  exact (List.mem_append.mp hc).elim (ha c) (hb c)

theorem append_ne_empty {a : String} (ha : a ≠ "") (b : String) : a ++ b ≠ "" := by
  intro h
  have hl : (a ++ b).toList = [] := String.toList_eq_nil_iff.mpr h
  rw [String.toList_append, List.append_eq_nil_iff] at hl
  exact ha (String.toList_eq_nil_iff.mp hl.1)

/-- The text of a criterion is read as its tokens. -/
theorem reads_clause (hname : Token.Identifier name) (c : Criterion) (hcs : Token.Boundary cs)
    (h : Token.Reads cs ts) : Token.Reads ((c.clause name).toList ++ cs) (c.tokens name ++ ts) := by
  have hspace : ∀ ds, Token.Boundary (' ' :: ds) := fun ds => Token.boundary_cons rfl
  have hcompare : ∀ op : Comparator,
      Token.Reads ((name ++ " " ++ op.text ++ " :" ++ name).toList ++ cs)
        (.word name :: .comparison op :: .param (":" ++ name) :: ts) := by
    intro op
    have hparam := h.param hname.nonempty hname.isWord hcs
    have hop := (hparam.comparison op).space
    simpa using hop.word hname.nonempty hname.isWord (hspace _)
  cases c with
  | equals v =>
      have hsign : " = :" = " " ++ Comparator.eq.text ++ " :" := by decide
      rw [clause, hsign, ← String.append_assoc, ← String.append_assoc]
      exact hcompare .eq
  | compare op v =>
      rw [clause, ← OrderOperator.text_comparator]
      exact hcompare op.comparator
  | beginsWith v =>
      have hparam := h.rightParen.param hname.nonempty hname.isWord (Token.boundary_cons rfl)
      have hfirst := hparam.space.comma.word hname.nonempty hname.isWord (Token.boundary_cons rfl)
      have hcall := hfirst.leftParen.word (w := "begins_with") (by decide)
        (List.all_eq_true.mp (by decide)) (Token.boundary_cons rfl)
      have htext : ((beginsWith v).clause name).toList ++ cs = "begins_with".toList ++ '(' ::
          (name.toList ++ ',' :: ' ' :: ':' :: (name.toList ++ ')' :: cs)) := by
        simp [clause]
      rw [htext]
      exact hcall
  | between low high =>
      have hmax := h.param (append_ne_empty hname.nonempty "max")
        (isWord_append hname.isWord (List.all_eq_true.mp (by decide))) hcs
      have hand := hmax.space.word (w := "and") (by decide) (List.all_eq_true.mp (by decide))
        (hspace _)
      have hmin := hand.space.param (append_ne_empty hname.nonempty "min")
        (isWord_append hname.isWord (List.all_eq_true.mp (by decide))) (hspace _)
      have hbetween := hmin.space.word (w := "between") (by decide)
        (List.all_eq_true.mp (by decide)) (hspace _)
      have hclause := hbetween.space.word hname.nonempty hname.isWord (hspace _)
      have htext : ((between low high).clause name).toList ++ cs = name.toList ++ ' ' ::
          ("between".toList ++ ' ' :: ':' :: ((name ++ "min").toList ++ ' ' ::
            ("and".toList ++ ' ' :: ':' :: ((name ++ "max").toList ++ cs)))) := by
        simp [clause]
      rw [htext]
      exact hclause

/-! ## Spelling a clause -/

open Condition (Spells SpellsOperand)

/-- The tokens of a criterion spell its condition. -/
theorem spells_tokens (hname : Token.Identifier name) (c : Criterion) :
    Spells .primary (c.tokens name) (c.condition name) := by
  have hattribute : SpellsOperand [.word name] (.path [name]) :=
    .path [] (Condition.isReserved_eq_false_iff.mp hname.free)
  cases c with
  | equals v => exact .compare .eq hattribute (.param _)
  | compare op v => exact .compare op.comparator hattribute (.param _)
  | beginsWith v =>
      exact .call (f := .beginsWith) (by decide) hattribute (.cons (.param _) .nil) rfl
  | between low high =>
      exact .between hattribute (by decide) (.param _) (by decide) (.param _)

end Criterion

namespace Criteria

variable {e : String × Criterion} {es : List (String × Criterion)} {ts : List Token}

/-- The characters of further clauses, each after an `and`. -/
def restChars (es : List (String × Criterion)) : List Char :=
  es.flatMap fun e => " and ".toList ++ (e.2.clause e.1).toList

/-- The tokens of further clauses. -/
def restTokens (es : List (String × Criterion)) : List Token :=
  es.flatMap fun e => .word "and" :: e.2.tokens e.1

/-- The condition of further clauses joined to one that has been read. -/
def joined (c : Condition) (es : List (String × Criterion)) : Condition :=
  es.foldl (fun c e => .and c (e.2.condition e.1)) c

/-! ## The tokens of all clauses -/

theorem toList_text (e : String × Criterion) (es : List (String × Criterion)) :
    (Criteria.mk (e :: es)).text.toList = (e.2.clause e.1).toList ++ restChars es := by
  induction es generalizing e with
  | nil => simp [text, restChars]
  | cons d es ih =>
      have htext : (Criteria.mk (e :: d :: es)).text =
          e.2.clause e.1 ++ " and " ++ (Criteria.mk (d :: es)).text :=
        String.intercalate_cons_cons
      rw [htext, String.toList_append, String.toList_append, ih, List.append_assoc]
      simp [restChars]

theorem boundary_restChars (es : List (String × Criterion)) :
    Token.Boundary (restChars es) := by
  cases es with
  | nil => exact Token.boundary_nil
  | cons e es => exact Token.boundary_cons rfl

theorem reads_rest (h : ∀ e ∈ es, Token.Identifier e.1) :
    Token.Reads (restChars es) (restTokens es) := by
  induction es with
  | nil => exact Token.reads_nil
  | cons e es ih =>
      have hrest := ih fun d hd => h d (List.mem_cons_of_mem _ hd)
      have hclause := Criterion.reads_clause (h e List.mem_cons_self) e.2
        (boundary_restChars es) hrest
      have hand := hclause.space.word (w := "and") (by decide) (List.all_eq_true.mp (by decide))
        (Token.boundary_cons rfl)
      simpa [restChars, restTokens] using hand.space

/-- The text of criteria is read as the tokens of its clauses. -/
theorem reads_text (h : ∀ d ∈ e :: es, Token.Identifier d.1) :
    Token.Reads (Criteria.mk (e :: es)).text.toList (e.2.tokens e.1 ++ restTokens es) := by
  rw [toList_text]
  exact Criterion.reads_clause (h e List.mem_cons_self) e.2 (boundary_restChars es)
    (reads_rest fun d hd => h d (List.mem_cons_of_mem _ hd))

/-! ## The condition of all clauses -/

open Condition (Spells)

/-- The clauses are joined one after the other. -/
theorem spells_rest (h : ∀ e ∈ es, Token.Identifier e.1) {c : Condition} (hc : Spells .and ts c) :
    Spells .and (ts ++ restTokens es) (joined c es) := by
  induction es generalizing ts c with
  | nil => simpa [restTokens, joined] using hc
  | cons e es ih =>
      have hclause := Criterion.spells_tokens (h e List.mem_cons_self) e.2
      have hboth := Spells.and (w := "and") hc (by decide) (.ofPrimary hclause)
      have hrest := ih (fun d hd => h d (List.mem_cons_of_mem _ hd)) hboth
      rwa [List.append_assoc] at hrest

/-- The text of criteria is read as the conjunction of the criteria. -/
theorem ofText_text (h : ∀ d ∈ e :: es, Token.Identifier d.1) :
    Condition.ofText (Criteria.mk (e :: es)).text = .ok (joined (e.2.condition e.1) es) := by
  have hfirst := Criterion.spells_tokens (h e List.mem_cons_self) e.2
  have hrest : ∀ d ∈ es, Token.Identifier d.1 := fun d hd => h d (List.mem_cons_of_mem _ hd)
  have hall := spells_rest hrest (.ofNot (.ofPrimary hfirst))
  exact Condition.ofText_eq_ok_iff.mpr ⟨_, Token.ofText_of_reads (reads_text h), .ofAnd hall⟩

end Criteria

end ItemStore
