import ItemStore.Proofs.GrammarComplete
import ItemStore.Proofs.Token

/-!
# Conditions and their texts

A text is read as a condition exactly when its tokens spell it, and since the reader gives one
answer, no tokens spell two conditions.  Not every condition has a text: its names must be words,
no keyword may begin a path, parameters have their colon, and functions take as many arguments as
they ask for, `Condition.WellFormed`.  Such a condition can be written with every `and`, `or` and
`not` in parentheses, `Condition.text`, and that text is read as it.
-/

namespace ItemStore

/-! ## Writing conditions -/

namespace Operand

/-- The operand can be written. -/
def WellFormed : Operand → Prop
  | path [] => False
  | path (w :: ws) => Token.lowercase w ∉ Token.keywords ∧ ∀ v ∈ w :: ws, Token.IsWord v
  | param name => ∃ w, Token.IsWord w ∧ name = ":" ++ w

/-- The tokens of the operand; a path without segments has none. -/
def tokens : Operand → List Token
  | path [] => []
  | path (w :: ws) => .word w :: ws.flatMap fun v => [.dot, .word v]
  | param name => [.param name]

theorem forall_mem_tokens {o : Operand} (h : o.WellFormed) : ∀ t ∈ o.tokens, t.WellFormed := by
  cases o with
  | path ws =>
      cases ws with
      | nil => exact h.elim
      | cons w ws =>
          obtain ⟨hw, hws⟩ := List.forall_mem_cons.mp h.2
          simp only [tokens, List.forall_mem_cons, List.forall_mem_flatMap]
          exact ⟨hw, fun v hv => ⟨trivial, hws v hv, nofun⟩⟩
  | param name => exact List.forall_mem_singleton.mpr h

end Operand

namespace Condition

/-- The condition can be written. -/
def WellFormed : Condition → Prop
  | compare left _ right => left.WellFormed ∧ right.WellFormed
  | between value low high => value.WellFormed ∧ low.WellFormed ∧ high.WellFormed
  | and left right | or left right => left.WellFormed ∧ right.WellFormed
  | not inner => inner.WellFormed
  | call f args => args.length = f.arity ∧ ∀ arg ∈ args, arg.WellFormed

/-- The calls that the condition makes, with their arguments. -/
def calls : Condition → List (Function × List Operand)
  | call f args => [(f, args)]
  | and left right | or left right => left.calls ++ right.calls
  | not inner => inner.calls
  | compare .. | between .. => []

/-- In a condition that can be written, every call has as many arguments as its function takes. -/
theorem WellFormed.length_eq_arity {c : Condition} (h : c.WellFormed) :
    ∀ p ∈ c.calls, p.2.length = p.1.arity := by
  induction c with
  | compare | between => exact nofun
  | call f args => exact List.forall_mem_singleton.mpr h.1
  | and left right ihl ihr | or left right ihl ihr =>
      exact List.forall_mem_append.mpr ⟨ihl h.1, ihr h.2⟩
  | not inner ih => exact ih h

/-- The tokens of the condition, with all parentheses; a call without arguments has none. -/
def tokens : Condition → List Token
  | compare left op right => left.tokens ++ .comparison op :: right.tokens
  | between value low high =>
      value.tokens ++ .word "between" :: (low.tokens ++ .word "and" :: high.tokens)
  | and left right => .leftParen :: ((left.tokens ++ .word "and" :: right.tokens) ++ [.rightParen])
  | or left right => .leftParen :: ((left.tokens ++ .word "or" :: right.tokens) ++ [.rightParen])
  | not inner => .leftParen :: ((.word "not" :: inner.tokens) ++ [.rightParen])
  | call _ [] => []
  | call f (arg :: args) =>
      .word f.name :: .leftParen ::
        (arg.tokens ++ ((args.flatMap fun arg => .comma :: arg.tokens) ++ [.rightParen]))

/-- The text of the condition. -/
def text (c : Condition) : String := Token.textOf c.tokens

variable {ts us : List Token} {o : Operand} {args : List Operand} {c d : Condition}
  {level level' : Level}

/-! ## What is written spells the condition -/

theorem spellsOperand_tokens (h : o.WellFormed) : SpellsOperand o.tokens o := by
  cases o with
  | path ws =>
      cases ws with
      | nil => exact h.elim
      | cons w ws => exact .path ws h.1
  | param name => exact .param name

theorem spellsArguments_tokens (h : ∀ arg ∈ args, arg.WellFormed) :
    SpellsArguments (args.flatMap fun arg => .comma :: arg.tokens) args := by
  induction args with
  | nil => exact .nil
  | cons arg args ih =>
      obtain ⟨harg, hargs⟩ := List.forall_mem_cons.mp h
      exact .cons (spellsOperand_tokens harg) (ih hargs)

/-- With all parentheses, a condition is spelled on the tightest level. -/
theorem spells_tokens (h : c.WellFormed) : Spells .primary c.tokens c := by
  induction c with
  | compare left op right => exact .compare op (spellsOperand_tokens h.1) (spellsOperand_tokens h.2)
  | between value low high =>
      exact .between (spellsOperand_tokens h.1) (by decide) (spellsOperand_tokens h.2.1)
        (by decide) (spellsOperand_tokens h.2.2)
  | and left right ihl ihr =>
      have hleft : Spells .and left.tokens left := .ofNot (.ofPrimary (ihl h.1))
      exact .group (.ofAnd (.and hleft (by decide) (.ofPrimary (ihr h.2))))
  | or left right ihl ihr =>
      have hleft : Spells .and left.tokens left := .ofNot (.ofPrimary (ihl h.1))
      exact .group (.or (.ofAnd hleft) (by decide) (.ofNot (.ofPrimary (ihr h.2))))
  | not inner ih =>
      exact .group (.ofAnd (.ofNot (.not (by decide) (.ofPrimary (ih h)))))
  | call f args =>
      obtain ⟨harity, hargs⟩ := h
      cases args with
      | nil => cases f <;> cases harity
      | cons arg args =>
          obtain ⟨harg, hargs⟩ := List.forall_mem_cons.mp hargs
          have hname : Token.lowercase f.name = f.name := by cases f <;> decide
          exact .call hname (spellsOperand_tokens harg) (spellsArguments_tokens hargs) harity

theorem forall_mem_tokens (h : c.WellFormed) : ∀ t ∈ c.tokens, t.WellFormed := by
  have hand : Token.IsWord "and" := by decide
  induction c with
  | compare left op right =>
      simp only [tokens, List.forall_mem_append, List.forall_mem_cons]
      exact ⟨Operand.forall_mem_tokens h.1, trivial, Operand.forall_mem_tokens h.2⟩
  | between value low high =>
      simp only [tokens, List.forall_mem_append, List.forall_mem_cons]
      have hbetween : Token.IsWord "between" := by decide
      exact ⟨Operand.forall_mem_tokens h.1, hbetween, Operand.forall_mem_tokens h.2.1, hand,
        Operand.forall_mem_tokens h.2.2⟩
  | and left right ihl ihr =>
      simp only [tokens, List.forall_mem_append, List.forall_mem_cons]
      exact ⟨trivial, ⟨ihl h.1, hand, ihr h.2⟩, trivial, nofun⟩
  | or left right ihl ihr =>
      have hor : Token.IsWord "or" := by decide
      simp only [tokens, List.forall_mem_append, List.forall_mem_cons]
      exact ⟨trivial, ⟨ihl h.1, hor, ihr h.2⟩, trivial, nofun⟩
  | not inner ih =>
      have hnot : Token.IsWord "not" := by decide
      simp only [tokens, List.forall_mem_append, List.forall_mem_cons]
      exact ⟨trivial, ⟨hnot, ih h⟩, trivial, nofun⟩
  | call f args =>
      have hf : Token.IsWord f.name := by cases f <;> decide
      cases args with
      | nil => exact nofun
      | cons arg args =>
          obtain ⟨harg, hargs⟩ := List.forall_mem_cons.mp h.2
          simp only [tokens, List.forall_mem_append, List.forall_mem_cons,
            List.forall_mem_flatMap]
          exact ⟨hf, trivial, Operand.forall_mem_tokens harg,
            fun arg harg => ⟨trivial, Operand.forall_mem_tokens (hargs arg harg)⟩, trivial, nofun⟩

/-! ## What is spelled can be written -/

theorem SpellsOperand.wellFormed (h : SpellsOperand ts o) (hts : ∀ t ∈ ts, t.WellFormed) :
    o.WellFormed := by
  cases h with
  | param name => exact hts _ List.mem_cons_self
  | path ws hfree =>
      simp only [List.forall_mem_cons, List.forall_mem_flatMap] at hts
      refine ⟨hfree, List.forall_mem_cons.mpr ⟨hts.1, fun v hv => (hts.2 v hv).2.1⟩⟩

theorem SpellsArguments.wellFormed (h : SpellsArguments ts args) (hts : ∀ t ∈ ts, t.WellFormed) :
    ∀ arg ∈ args, arg.WellFormed := by
  induction h with
  | nil => exact nofun
  | cons harg hargs ih =>
      simp only [List.forall_mem_cons, List.forall_mem_append] at hts
      exact List.forall_mem_cons.mpr ⟨harg.wellFormed hts.2.1, ih hts.2.2⟩

theorem Spells.wellFormed (h : Spells level ts c) (hts : ∀ t ∈ ts, t.WellFormed) :
    c.WellFormed := by
  induction h with
  | ofAnd _ ih | ofNot _ ih | ofPrimary _ ih => exact ih hts
  | or _ _ _ ihc ihd | and _ _ _ ihc ihd =>
      simp only [List.forall_mem_append, List.forall_mem_cons] at hts
      exact ⟨ihc hts.1, ihd hts.2.2⟩
  | not _ _ ih => exact ih (List.forall_mem_cons.mp hts).2
  | group _ ih =>
      simp only [List.forall_mem_append, List.forall_mem_cons] at hts
      exact ih hts.2.1
  | call _ harg hargs harity =>
      simp only [List.forall_mem_append, List.forall_mem_cons] at hts
      obtain ⟨-, -, htarg, htargs, -⟩ := hts
      exact ⟨harity, List.forall_mem_cons.mpr ⟨harg.wellFormed htarg, hargs.wellFormed htargs⟩⟩
  | compare _ hleft hright =>
      simp only [List.forall_mem_append, List.forall_mem_cons] at hts
      exact ⟨hleft.wellFormed hts.1, hright.wellFormed hts.2.2⟩
  | between hvalue _ hlow _ hhigh =>
      simp only [List.forall_mem_append, List.forall_mem_cons] at hts
      exact ⟨hvalue.wellFormed hts.1, hlow.wellFormed hts.2.2.1, hhigh.wellFormed hts.2.2.2.2⟩

/-! ## Reading texts -/

/-- A text is read as a condition exactly when its tokens spell it. -/
theorem ofText_eq_ok_iff {text : String} :
    ofText text = .ok c ↔ ∃ ts, Token.ofText text = .ok (ts ++ [.eof]) ∧ Spells .or ts c := by
  constructor
  · intro h
    rw [ofText] at h
    split at h
    next => cases h
    next =>
        obtain ⟨us, htokens, h⟩ := bind_eq_ok_iff.mp h
        obtain ⟨ts, rfl, hts, -⟩ := Token.ofText_sound htokens
        exact ⟨ts, htokens, (ofTokens_eq_ok_iff fun heof => hts _ heof).mp h⟩
  · rintro ⟨ts, htokens, h⟩
    obtain ⟨ts', heq, -, hblank⟩ := Token.ofText_sound htokens
    rw [← List.append_cancel_right heq] at hblank
    rw [ofText, hblank h.ne_nil, if_neg Bool.false_ne_true, htokens]
    exact (ofTokens_eq_ok_iff h.eof_notMem).mpr h

/-- What is spelled on some level is spelled on the loosest. -/
theorem Spells.loosen (h : Spells level ts c) : Spells .or ts c := by
  cases level with
  | or => exact h
  | and => exact .ofAnd h
  | not => exact .ofAnd (.ofNot h)
  | primary => exact .ofAnd (.ofNot (.ofPrimary h))

/-- No tokens spell two conditions. -/
theorem Spells.unique (h : Spells level ts c) (h' : Spells level' ts d) : c = d := by
  have hread := (ofTokens_eq_ok_iff h.eof_notMem).mpr h.loosen
  rw [(ofTokens_eq_ok_iff h.eof_notMem).mpr h'.loosen] at hread
  exact (Except.ok.inj hread).symm

/-- The text of a condition is read as it. -/
theorem ofText_text (h : c.WellFormed) : ofText c.text = .ok c := by
  have htokens := Token.ofText_textOf (forall_mem_tokens h)
  exact ofText_eq_ok_iff.mpr ⟨c.tokens, htokens, (spells_tokens h).loosen⟩

example : (Condition.not (.compare (.path ["a", "b"]) .le (.param ":x"))).text =
    "( not a . b <= :x ) " := by decide

/-- The conditions that texts are read as are those that can be written. -/
theorem exists_ofText_iff : (∃ text, ofText text = .ok c) ↔ c.WellFormed := by
  constructor
  · rintro ⟨text, h⟩
    obtain ⟨ts, htokens, hts⟩ := ofText_eq_ok_iff.mp h
    obtain ⟨ts', heq, hwords, -⟩ := Token.ofText_sound htokens
    rw [← List.append_cancel_right heq] at hwords
    exact hts.wellFormed hwords
  · exact fun h => ⟨c.text, ofText_text h⟩

/-- A text is read as a condition exactly when its tokens spell it.  No tokens spell two
conditions, on whatever levels of the grammar.  The conditions that can be written are the ones
that texts are read as, and the text that one is written as is among them.  Every text whose
tokens spell nothing, or that has no tokens, is an error. -/
theorem ofText_grammar :
    (∀ text c, ofText text = .ok c ↔
      ∃ ts, Token.ofText text = .ok (ts ++ [.eof]) ∧ Spells .or ts c) ∧
    (∀ level level' ts c d, Spells level ts c → Spells level' ts d → c = d) ∧
    (∀ c, (∃ text, ofText text = .ok c) ↔ c.WellFormed) ∧
    (∀ c, c.WellFormed → ofText c.text = .ok c) ∧
    (∀ text, (¬ ∃ ts c, Token.ofText text = .ok (ts ++ [.eof]) ∧ Spells .or ts c) →
      ∃ e, ofText text = .error e) := by
  refine ⟨fun text c => ofText_eq_ok_iff, fun _ _ _ _ _ => Spells.unique,
    fun c => exists_ofText_iff, fun c => ofText_text, ?_⟩
  intro text hnone
  cases h : ofText text with
  | error e => exact ⟨e, rfl⟩
  | ok c =>
      obtain ⟨ts, hts⟩ := ofText_eq_ok_iff.mp h
      exact absurd ⟨ts, c, hts⟩ hnone

/-- A negation binds tighter than a conjunction, keywords may follow a dot, and a function's name
names an attribute where no parenthesis comes after it. -/
theorem ofText_grammar_negation :
    ofText "NOT a.and = :x and Contains(contains, :y)" =
      .ok (.and (.not (.compare (.path ["a", "and"]) .eq (.param ":x")))
        (.call .contains [.path ["contains"], .param ":y"])) := by
  have hpath : SpellsOperand _ (.path ["a", "and"]) := .path (w := "a") ["and"] (by decide)
  have hcompare := Spells.compare .eq hpath (.param ":x")
  have hnot := Spells.not (w := "NOT") (by decide) (.ofPrimary hcompare)
  have hargument : SpellsOperand _ (.path ["contains"]) := .path (w := "contains") [] (by decide)
  have hcall := Spells.call (w := "Contains") (f := .contains) (by decide) hargument
    (.cons (.param ":y") .nil) rfl
  have hboth := Spells.and (w := "and") (.ofNot hnot) (by decide) (.ofPrimary hcall)
  exact (ofText_grammar.1 _ _).mpr ⟨_, by decide, .ofAnd hboth⟩

end Condition

end ItemStore
