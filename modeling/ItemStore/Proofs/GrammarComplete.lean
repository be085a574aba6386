import ItemStore.Proofs.Grammar
import Mathlib.Data.List.Basic

/-!
# Everything in the grammar is read

Tokens that spell a condition are read as it (`Spells.gives`), provided that the tokens after them
cannot continue what has been read: no dot after a path, and no further `and` or `or` on the level
that is read.  What a loop does after its first part depends on the tokens after it, so the two
loops are described by what they hand on: reading a conjunction that has been spelled so far is
going on with it as the left part.

Every token takes four units of fuel at most, and each level a few beside them.
-/

namespace ItemStore.Condition

open Token (peek isKeyword isReserved lowercase)

variable {ts us rest : List Token} {w : String} {o : Operand} {c : Condition} {level : Level}

/-! ## Operands and arguments -/

theorem parseSegments_complete (hrest : peek rest ≠ .dot) (done ws : List String) :
    parseSegments done ((ws.flatMap fun v => [.dot, .word v]) ++ rest) =
      .ok (.path (done.reverse ++ ws), rest) := by
  induction ws generalizing done with
  | nil =>
      rw [List.flatMap_nil, List.nil_append, List.append_nil]
      unfold parseSegments
      split
      next => exact absurd rfl hrest
      next => exact absurd rfl hrest
      next => rfl
  | cons v ws ih =>
      show parseSegments (v :: done) ((ws.flatMap fun v => [.dot, .word v]) ++ rest) = _
      rw [ih]
      simp

theorem parseOperand_complete (h : SpellsOperand us o) (hrest : peek rest ≠ .dot) :
    parseOperand (us ++ rest) = .ok (o, rest) := by
  cases h with
  | param name => rfl
  | path ws hfree =>
      rw [List.cons_append, parseOperand, isReserved_eq_false_iff.mpr hfree,
        if_neg Bool.false_ne_true]
      exact parseSegments_complete hrest _ ws

/-- An operand begins with a parameter or a word that is no keyword. -/
theorem SpellsOperand.peek_ne (h : SpellsOperand us o) (rest : List Token) :
    peek (us ++ rest) ≠ .leftParen ∧ isKeyword "not" (peek (us ++ rest)) = false := by
  cases h with
  | param name => exact ⟨by simp [peek], rfl⟩
  | @path w ws hfree =>
      refine ⟨by simp [peek], ?_⟩
      refine beq_false_of_ne ?_
      intro hnot
      exact hfree (hnot ▸ by decide)

theorem SpellsOperand.calledFunction?_eq_none (h : SpellsOperand us o)
    (hrest : peek rest ≠ .leftParen) : calledFunction? (us ++ rest) = none := by
  cases h with
  | param name => rfl
  | @path w ws hfree =>
      cases ws with
      | nil =>
          cases rest with
          | nil => rfl
          | cons t rest =>
              cases t with
              | leftParen => exact absurd rfl hrest
              | _ => rfl
      | cons v ws => rfl

theorem SpellsArguments.peek_ne_dot {args : List Operand} (h : SpellsArguments us args)
    (hrest : peek rest ≠ .dot) : peek (us ++ rest) ≠ .dot := by
  cases h with
  | nil => exact hrest
  | cons _ _ => simp [peek]

theorem SpellsArguments.length_le {args : List Operand} (h : SpellsArguments us args) :
    args.length ≤ us.length := by
  induction h with
  | nil => exact Nat.le_refl 0
  | cons _ _ ih =>
      simp only [List.length_cons, List.length_append]
      omega

theorem parseArguments_complete {args : List Operand} (h : SpellsArguments us args)
    (hcomma : peek rest ≠ .comma) (hdot : peek rest ≠ .dot) (done : List Operand) {fuel : Nat}
    (hfuel : args.length ≤ fuel) :
    parseArguments done fuel (us ++ rest) = .ok (done.reverse ++ args, rest) := by
  induction h generalizing done fuel with
  | nil =>
      rw [List.nil_append, List.append_nil]
      unfold parseArguments
      split
      next => rfl
      next => exact absurd rfl hcomma
      next => rfl
  | @cons ts us arg args harg hargs ih =>
      rw [List.length_cons] at hfuel
      obtain ⟨fuel, rfl⟩ : ∃ n, fuel = n + 1 := ⟨fuel - 1, by omega⟩
      rw [List.cons_append, List.append_assoc, parseArguments,
        parseOperand_complete harg (hargs.peek_ne_dot hdot)]
      show parseArguments (arg :: done) fuel (us ++ rest) = _
      rw [ih _ (by omega)]
      simp

theorem parseCall_complete {f : Function} {arg : Operand} {args : List Operand}
    (harg : SpellsOperand ts arg) (hargs : SpellsArguments us args)
    (harity : (arg :: args).length = f.arity) :
    parseCall f (.leftParen :: (ts ++ (us ++ .rightParen :: rest))) =
      .ok (.call f (arg :: args), rest) := by
  have hdot : peek (us ++ .rightParen :: rest) ≠ .dot := hargs.peek_ne_dot (by simp [peek])
  have hlength : args.length ≤ (us ++ .rightParen :: rest).length := by
    rw [List.length_append]
    exact Nat.le_trans hargs.length_le (Nat.le_add_right _ _)
  rw [parseCall, expect_cons]
  show (parseOperand _).bind _ = _
  rw [parseOperand_complete harg hdot]
  show (parseArguments [arg] _ _).bind _ = _
  rw [parseArguments_complete hargs (by simp [peek]) (by simp [peek]) [arg] hlength]
  simp only [bind, Except.bind, expect_cons]
  exact if_pos harity

theorem parseComparison_compare {left right : Operand} (op : Comparator)
    (hleft : SpellsOperand ts left) (hright : SpellsOperand us right) (hrest : peek rest ≠ .dot) :
    parseComparison (ts ++ .comparison op :: (us ++ rest)) =
      .ok (.compare left op right, rest) := by
  rw [parseComparison, parseOperand_complete hleft (by simp [peek])]
  show (parseOperand (us ++ rest)).bind _ = _
  rw [parseOperand_complete hright hrest]
  rfl

theorem parseComparison_between {vs : List Token} {w' : String} {value low high : Operand}
    (hvalue : SpellsOperand ts value) (hw : lowercase w = "between") (hlow : SpellsOperand us low)
    (hw' : lowercase w' = "and") (hhigh : SpellsOperand vs high) (hrest : peek rest ≠ .dot) :
    parseComparison (ts ++ .word w :: (us ++ .word w' :: (vs ++ rest))) =
      .ok (.between value low high, rest) := by
  have hbetween := isKeyword_word_iff.mpr hw
  have hand := isKeyword_word_iff.mpr hw'
  rw [parseComparison, parseOperand_complete hvalue (by simp [peek])]
  show (if isKeyword "between" (.word w) = true then _ else _) = _
  rw [if_pos hbetween]
  show (parseOperand (us ++ .word w' :: (vs ++ rest))).bind _ = _
  rw [parseOperand_complete hlow (by simp [peek])]
  show (if isKeyword "and" (.word w') = true then _ else _) = _
  rw [if_pos hand]
  show (parseOperand (vs ++ rest)).bind _ = _
  rw [parseOperand_complete hhigh hrest]
  rfl

/-! ## The levels -/

theorem parseAndRest_of_not_and {fuel : Nat} (h : isKeyword "and" (peek rest) = false)
    (hfuel : 1 ≤ fuel) : parseAndRest fuel c rest = .ok (c, rest) := by
  obtain ⟨fuel, rfl⟩ : ∃ n, fuel = n + 1 := ⟨fuel - 1, by omega⟩
  rw [parseAndRest, h, if_neg Bool.false_ne_true]

theorem parseOrRest_of_not_or {fuel : Nat} (h : isKeyword "or" (peek rest) = false)
    (hfuel : 1 ≤ fuel) : parseOrRest fuel c rest = .ok (c, rest) := by
  obtain ⟨fuel, rfl⟩ : ∃ n, fuel = n + 1 := ⟨fuel - 1, by omega⟩
  rw [parseOrRest, h, if_neg Bool.false_ne_true]

/-- What the reader of a level does with tokens that spell a condition, whatever comes after
them. -/
def Level.Gives : Level → List Token → Condition → Prop
  | .primary, us, c => ∀ rest fuel, peek rest ≠ .dot → 4 * us.length ≤ fuel →
      parsePrimary fuel (us ++ rest) = .ok (c, rest)
  | .not, us, c => ∀ rest fuel, peek rest ≠ .dot → 4 * us.length + 1 ≤ fuel →
      parseNot fuel (us ++ rest) = .ok (c, rest)
  | .and, us, c => ∀ rest fuel enough result, peek rest ≠ .dot →
      (∀ fuel, enough ≤ fuel → parseAndRest fuel c rest = result) →
      enough + 4 * us.length + 2 ≤ fuel → parseAnd fuel (us ++ rest) = result
  | .or, us, c => ∀ rest fuel enough result, peek rest ≠ .dot →
      isKeyword "and" (peek rest) = false →
      (∀ fuel, enough ≤ fuel → parseOrRest fuel c rest = result) →
      enough + 4 * us.length + 4 ≤ fuel → parseOr fuel (us ++ rest) = result

/-- A conjunction that is not continued is read as a whole. -/
theorem Level.Gives.parseAnd_eq (h : Level.Gives .and us c) (hdot : peek rest ≠ .dot)
    (hand : isKeyword "and" (peek rest) = false) {fuel : Nat} (hfuel : 4 * us.length + 3 ≤ fuel) :
    parseAnd fuel (us ++ rest) = .ok (c, rest) :=
  h rest fuel 1 _ hdot (fun _ => parseAndRest_of_not_and hand) (by omega)

/-- A disjunction that is not continued is read as a whole. -/
theorem Level.Gives.parseOr_eq (h : Level.Gives .or us c) (hdot : peek rest ≠ .dot)
    (hand : isKeyword "and" (peek rest) = false) (hor : isKeyword "or" (peek rest) = false)
    {fuel : Nat} (hfuel : 4 * us.length + 5 ≤ fuel) :
    parseOr fuel (us ++ rest) = .ok (c, rest) :=
  h rest fuel 1 _ hdot hand (fun _ => parseOrRest_of_not_or hor) (by omega)

/-- What a primary begins with is no negation. -/
theorem Spells.isKeyword_not (h : Spells .primary us c) (rest : List Token) :
    isKeyword "not" (peek (us ++ rest)) = false := by
  cases h with
  | group _ => rfl
  | @call ts us w f arg args hw _ _ _ =>
      refine beq_false_of_ne ?_
      rw [hw]
      cases f <;> decide
  | compare op hleft _ =>
      rw [List.append_assoc]
      exact (hleft.peek_ne _).2
  | between hvalue _ _ _ _ =>
      rw [List.append_assoc]
      exact (hvalue.peek_ne _).2

/-- Where an operand begins, a comparison or a range is read. -/
theorem parsePrimary_of_operand (h : SpellsOperand us o) (hrest : peek rest ≠ .leftParen)
    (fuel : Nat) : parsePrimary (fuel + 1) (us ++ rest) = parseComparison (us ++ rest) := by
  rw [parsePrimary, if_neg (h.peek_ne rest).1, h.calledFunction?_eq_none hrest]

/-- Tokens that spell a condition are read as it. -/
theorem Spells.gives (h : Spells level us c) : level.Gives us c := by
  induction h with
  | ofAnd _ ih =>
      intro rest fuel enough result hdot hand hnext hfuel
      obtain ⟨fuel, rfl⟩ : ∃ n, fuel = n + 1 := ⟨fuel - 1, by omega⟩
      rw [parseOr, ih.parseAnd_eq hdot hand (by omega)]
      exact hnext fuel (by omega)
  | @or ts us w c d _ hw _ ihc ihd =>
      intro rest fuel enough result hdot hand hnext hfuel
      rw [List.length_append, List.length_cons] at hfuel
      have hother : isKeyword "and" (.word w) = false := by
        refine beq_false_of_ne ?_
        rw [hw]
        decide
      rw [List.append_assoc, List.cons_append]
      refine ihc _ fuel (enough + (4 * us.length + 3) + 1) _ (by simp [peek]) hother ?_ (by omega)
      intro fuel hfuel
      obtain ⟨fuel, rfl⟩ : ∃ n, fuel = n + 1 := ⟨fuel - 1, by omega⟩
      rw [parseOrRest, peek, List.headD_cons, isKeyword_word_iff.mpr hw, if_pos rfl,
        List.tail_cons, ihd.parseAnd_eq hdot hand (by omega)]
      exact hnext fuel (by omega)
  | ofNot _ ih =>
      intro rest fuel enough result hdot hnext hfuel
      obtain ⟨fuel, rfl⟩ : ∃ n, fuel = n + 1 := ⟨fuel - 1, by omega⟩
      rw [parseAnd, ih rest fuel hdot (by omega)]
      exact hnext fuel (by omega)
  | @and ts us w c d _ hw _ ihc ihd =>
      intro rest fuel enough result hdot hnext hfuel
      rw [List.length_append, List.length_cons] at hfuel
      rw [List.append_assoc, List.cons_append]
      refine ihc _ fuel (enough + (4 * us.length + 1) + 1) _ (by simp [peek]) ?_ (by omega)
      intro fuel hfuel
      obtain ⟨fuel, rfl⟩ : ∃ n, fuel = n + 1 := ⟨fuel - 1, by omega⟩
      rw [parseAndRest, peek, List.headD_cons, isKeyword_word_iff.mpr hw, if_pos rfl,
        List.tail_cons, ihd rest fuel hdot (by omega)]
      exact hnext fuel (by omega)
  | ofPrimary hc ih =>
      intro rest fuel hdot hfuel
      obtain ⟨fuel, rfl⟩ : ∃ n, fuel = n + 1 := ⟨fuel - 1, by omega⟩
      rw [parseNot, hc.isKeyword_not, if_neg Bool.false_ne_true]
      exact ih rest fuel hdot (by omega)
  | @not us w c hw _ ih =>
      intro rest fuel hdot hfuel
      rw [List.length_cons] at hfuel
      obtain ⟨fuel, rfl⟩ : ∃ n, fuel = n + 1 := ⟨fuel - 1, by omega⟩
      rw [List.cons_append, parseNot, peek, List.headD_cons, isKeyword_word_iff.mpr hw, if_pos rfl,
        List.tail_cons, ih rest fuel hdot (by omega)]
      rfl
  | @group us c _ ih =>
      intro rest fuel hdot hfuel
      simp only [List.length_cons, List.length_append, List.length_nil] at hfuel
      obtain ⟨fuel, rfl⟩ : ∃ n, fuel = n + 1 := ⟨fuel - 1, by omega⟩
      rw [List.cons_append, List.append_assoc, parsePrimary, peek, List.headD_cons, if_pos rfl,
        List.tail_cons, List.singleton_append,
        ih.parseOr_eq (by simp [peek]) rfl rfl (by omega)]
      simp only [bind, Except.bind, expect_cons]
  | @call ts us w f arg args hw harg hargs harity =>
      intro rest fuel _ hfuel
      simp only [List.length_cons] at hfuel
      obtain ⟨fuel, rfl⟩ : ∃ n, fuel = n + 1 := ⟨fuel - 1, by omega⟩
      have hcalled : ∀ vs, calledFunction? (.word w :: .leftParen :: vs) = some f :=
        fun _ => ofName?_eq_some_iff.mpr hw
      simp only [List.cons_append, List.append_assoc, List.nil_append]
      rw [parsePrimary, peek, List.headD_cons, if_neg (by simp), hcalled]
      exact parseCall_complete harg hargs harity
  | compare op hleft hright =>
      intro rest fuel hdot hfuel
      simp only [List.length_append, List.length_cons] at hfuel
      obtain ⟨fuel, rfl⟩ : ∃ n, fuel = n + 1 := ⟨fuel - 1, by omega⟩
      rw [List.append_assoc, List.cons_append, parsePrimary_of_operand hleft (by simp [peek])]
      exact parseComparison_compare op hleft hright hdot
  | between hvalue hw hlow hw' hhigh =>
      intro rest fuel hdot hfuel
      simp only [List.length_append, List.length_cons] at hfuel
      obtain ⟨fuel, rfl⟩ : ∃ n, fuel = n + 1 := ⟨fuel - 1, by omega⟩
      simp only [List.append_assoc, List.cons_append]
      rw [parsePrimary_of_operand hvalue (by simp [peek])]
      exact parseComparison_between hvalue hw hlow hw' hhigh hdot

/-! ## All tokens -/

/-- The end mark spells nothing. -/
theorem SpellsOperand.eof_notMem (h : SpellsOperand us o) : .eof ∉ us := by
  cases h <;> simp

theorem SpellsArguments.eof_notMem {args : List Operand} (h : SpellsArguments us args) :
    .eof ∉ us := by
  induction h with
  | nil => exact List.not_mem_nil
  | cons harg _ ih => simp [harg.eof_notMem, ih]

theorem Spells.eof_notMem (h : Spells level us c) : .eof ∉ us := by
  induction h with
  | ofAnd _ ih | ofNot _ ih | ofPrimary _ ih => exact ih
  | or _ _ _ ihc ihd | and _ _ _ ihc ihd => simp [ihc, ihd]
  | not _ _ ih | group _ ih => simp [ih]
  | call _ harg hargs _ => simp [harg.eof_notMem, hargs.eof_notMem]
  | compare _ hleft hright => simp [hleft.eof_notMem, hright.eof_notMem]
  | between hvalue _ hlow _ hhigh =>
      simp [hvalue.eof_notMem, hlow.eof_notMem, hhigh.eof_notMem]

theorem Spells.ne_nil (h : Spells level us c) : us ≠ [] := by
  induction h with
  | ofAnd _ ih | ofNot _ ih | ofPrimary _ ih => exact ih
  | _ => simp

/-- What stands before the first end mark is determined. -/
theorem eq_of_append_eof (hts : .eof ∉ ts) (hus : .eof ∉ us) (hrest : peek rest = .eof)
    (h : ts ++ [.eof] = us ++ rest) : ts = us := by
  cases rest with
  | nil =>
      rw [List.append_nil] at h
      exact absurd (h ▸ List.mem_append_right ts (List.mem_singleton_self _)) hus
  | cons t rest =>
      cases hrest
      exact ((List.append_cons_inj_of_notMem hts List.not_mem_nil).mp h).1

/-- Tokens are read as the condition that they spell, and only so. -/
theorem ofTokens_eq_ok_iff (hts : .eof ∉ ts) :
    ofTokens (ts ++ [.eof]) = .ok c ↔ Spells .or ts c := by
  constructor
  · intro h
    obtain ⟨⟨d, rest⟩, hread, h⟩ := bind_eq_ok_iff.mp h
    simp only at h
    split at h
    next hrest =>
        cases h
        obtain ⟨us, hsplit, hus⟩ := (sound _).or hread
        rwa [eq_of_append_eof hts hus.eof_notMem hrest hsplit]
    next => cases h
  · intro h
    have hfuel : 4 * ts.length + 5 ≤ enoughFuel (ts ++ [.eof]) := by
      simp only [enoughFuel, List.length_append, List.length_cons, List.length_nil]
      omega
    rw [ofTokens, h.gives.parseOr_eq (by simp [peek]) rfl rfl hfuel]
    rfl

end ItemStore.Condition
