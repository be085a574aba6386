import ItemStore.Condition.Parser
import ItemStore.Proofs.Result

/-!
# The grammar of conditions

`Condition.Spells` says which tokens spell which condition:

    or       := and (OR and)*
    and      := not (AND not)*
    not      := NOT not | primary
    primary  := ( or ) | function ( operand (, operand)* )
              | operand comparison operand
              | operand BETWEEN operand AND operand
    operand  := parameter | word (. word)*

The two loops are left-recursive here, since they join to the left.  A function has as many
arguments as it takes, and a keyword cannot begin a path.  The readers take tokens that spell what
they return: `Sound` says so of all six of them for one amount of fuel, and `sound` carries it from
one amount to the next.
-/

namespace ItemStore.Condition

open Token (peek isKeyword isReserved lowercase)

/-! ## Tokens that spell conditions -/

/-- The tokens spell the operand. -/
inductive SpellsOperand : List Token → Operand → Prop
  | param (name : String) : SpellsOperand [.param name] (.param name)
  | path {w : String} (ws : List String) : lowercase w ∉ Token.keywords →
      SpellsOperand (.word w :: ws.flatMap fun v => [.dot, .word v]) (.path (w :: ws))

/-- The tokens spell further arguments of a call, each after a comma. -/
inductive SpellsArguments : List Token → List Operand → Prop
  | nil : SpellsArguments [] []
  | cons {ts us : List Token} {arg : Operand} {args : List Operand} : SpellsOperand ts arg →
      SpellsArguments us args → SpellsArguments (.comma :: (ts ++ us)) (arg :: args)

/-- The levels of the grammar, from the loosest to the tightest. -/
inductive Level where
  | or
  | and
  | not
  | primary

/-- The tokens spell the condition at a level of the grammar. -/
inductive Spells : Level → List Token → Condition → Prop
  | ofAnd {ts : List Token} {c : Condition} : Spells .and ts c → Spells .or ts c
  | or {ts us : List Token} {w : String} {c d : Condition} : Spells .or ts c →
      lowercase w = "or" → Spells .and us d → Spells .or (ts ++ .word w :: us) (.or c d)
  | ofNot {ts : List Token} {c : Condition} : Spells .not ts c → Spells .and ts c
  | and {ts us : List Token} {w : String} {c d : Condition} : Spells .and ts c →
      lowercase w = "and" → Spells .not us d → Spells .and (ts ++ .word w :: us) (.and c d)
  | ofPrimary {ts : List Token} {c : Condition} : Spells .primary ts c → Spells .not ts c
  | not {ts : List Token} {w : String} {c : Condition} : lowercase w = "not" →
      Spells .not ts c → Spells .not (.word w :: ts) (.not c)
  | group {ts : List Token} {c : Condition} : Spells .or ts c →
      Spells .primary (.leftParen :: (ts ++ [.rightParen])) c
  | call {ts us : List Token} {w : String} {f : Function} {arg : Operand} {args : List Operand} :
      lowercase w = f.name → SpellsOperand ts arg → SpellsArguments us args →
      (arg :: args).length = f.arity →
      Spells .primary (.word w :: .leftParen :: (ts ++ (us ++ [.rightParen])))
        (.call f (arg :: args))
  | compare {ts us : List Token} {left right : Operand} (op : Comparator) :
      SpellsOperand ts left → SpellsOperand us right →
      Spells .primary (ts ++ .comparison op :: us) (.compare left op right)
  | between {ts us vs : List Token} {w w' : String} {value low high : Operand} :
      SpellsOperand ts value → lowercase w = "between" → SpellsOperand us low →
      lowercase w' = "and" → SpellsOperand vs high →
      Spells .primary (ts ++ .word w :: (us ++ .word w' :: vs)) (.between value low high)

/-! ## Looking at the first token -/

variable {ts us rest : List Token} {t : Token} {w : String} {o : Operand} {c : Condition}
  {level : Level}

theorem isKeyword_word_iff {keyword : String} :
    isKeyword keyword (.word w) = true ↔ lowercase w = keyword := beq_iff_eq

theorem isReserved_eq_false_iff : isReserved w = false ↔ lowercase w ∉ Token.keywords := by
  rw [isReserved, List.contains_eq_mem, decide_eq_false_iff_not]

theorem eq_cons_of_peek (h : peek ts = t) (ht : t ≠ .eof) : ts = t :: ts.tail := by
  cases ts with
  | nil => exact absurd h.symm ht
  | cons u us => exact congrArg (· :: us) h

theorem eq_cons_of_isKeyword {keyword : String} (h : isKeyword keyword (peek ts) = true) :
    ∃ w, lowercase w = keyword ∧ ts = .word w :: ts.tail := by
  cases hpeek : peek ts with
  | word w =>
      rw [hpeek] at h
      exact ⟨w, isKeyword_word_iff.mp h, eq_cons_of_peek hpeek (by simp)⟩
  | _ =>
      rw [hpeek] at h
      cases h

theorem expect_cons (t : Token) (rest : List Token) : expect t (t :: rest) = .ok rest := by
  rw [expect, peek, List.headD_cons, if_pos rfl, List.tail_cons]

theorem expect_eq_ok_iff (ht : t ≠ .eof) : expect t ts = .ok rest ↔ ts = t :: rest := by
  constructor
  · intro h
    rw [expect] at h
    split at h
    next hpeek =>
        cases h
        exact eq_cons_of_peek hpeek ht
    next => cases h
  · rintro rfl
    exact expect_cons t rest

theorem ofName?_eq_some_iff {f : Function} :
    Function.ofName? w = some f ↔ lowercase w = f.name := by
  constructor
  · intro h
    rw [Function.ofName?] at h
    have hname := List.find?_some h
    exact (beq_iff_eq.mp hname).symm
  · intro h
    rw [Function.ofName?, h]
    cases f <;> decide

/-! ## What the readers take -/

theorem parseSegments_sound {done : List String}
    (h : parseSegments done ts = .ok (o, rest)) :
    ∃ ws, ts = (ws.flatMap fun v => [.dot, .word v]) ++ rest ∧ o = .path (done.reverse ++ ws) := by
  fun_induction parseSegments done ts with
  | case1 done w ts ih =>
      obtain ⟨ws, rfl, rfl⟩ := ih h
      exact ⟨w :: ws, by simp, by simp⟩
  | case2 => cases h
  | case3 done ts =>
      cases h
      exact ⟨[], rfl, by simp⟩

theorem parseOperand_sound (h : parseOperand ts = .ok (o, rest)) :
    ∃ us, ts = us ++ rest ∧ SpellsOperand us o := by
  unfold parseOperand at h
  split at h
  next name ts =>
      cases h
      exact ⟨[.param name], rfl, .param name⟩
  next w ts =>
      split at h
      next => cases h
      next hfree =>
          obtain ⟨ws, rfl, rfl⟩ := parseSegments_sound h
          have hw := isReserved_eq_false_iff.mp (Bool.not_eq_true _ ▸ hfree)
          exact ⟨_, rfl, .path ws hw⟩
  next => cases h

theorem parseArguments_sound {done args : List Operand} {fuel : Nat}
    (h : parseArguments done fuel ts = .ok (args, rest)) :
    ∃ us new, ts = us ++ rest ∧ SpellsArguments us new ∧ args = done.reverse ++ new := by
  fun_induction parseArguments done fuel ts with
  | case1 done ts =>
      cases h
      exact ⟨[], [], rfl, .nil, by simp⟩
  | case2 done fuel ts ih =>
      obtain ⟨⟨arg, ts'⟩, harg, h⟩ := bind_eq_ok_iff.mp h
      obtain ⟨us, hts, hus⟩ := parseOperand_sound harg
      obtain ⟨vs, new, hts', hvs, hargs⟩ := ih arg ts' h
      exact ⟨_, arg :: new, by simp [hts, hts'], .cons hus hvs, by simp [hargs]⟩
  | case3 done fuel ts =>
      cases h
      exact ⟨[], [], rfl, .nil, by simp⟩

theorem parseCall_sound {f : Function} (hw : lowercase w = f.name)
    (h : parseCall f ts = .ok (c, rest)) :
    ∃ us, .word w :: ts = us ++ rest ∧ Spells .primary us c := by
  obtain ⟨ts₁, hopen, h⟩ := bind_eq_ok_iff.mp h
  obtain ⟨⟨first, ts₂⟩, hfirst, h⟩ := bind_eq_ok_iff.mp h
  obtain ⟨⟨args, ts₃⟩, hargs, h⟩ := bind_eq_ok_iff.mp h
  obtain ⟨ts₄, hclose, h⟩ := bind_eq_ok_iff.mp h
  obtain ⟨us, hts₁, hus⟩ := parseOperand_sound hfirst
  obtain ⟨vs, new, hts₂, hvs, rfl⟩ := parseArguments_sound hargs
  split at h
  next harity =>
      cases h
      refine ⟨_, ?_, .call hw hus hvs harity⟩
      rw [(expect_eq_ok_iff (by simp)).mp hopen, hts₁, hts₂,
        (expect_eq_ok_iff (by simp)).mp hclose]
      simp
  next => cases h

theorem parseComparison_sound (h : parseComparison ts = .ok (c, rest)) :
    ∃ us, ts = us ++ rest ∧ Spells .primary us c := by
  obtain ⟨⟨left, ts₁⟩, hleft, h⟩ := bind_eq_ok_iff.mp h
  obtain ⟨us, hts, hus⟩ := parseOperand_sound hleft
  simp only at h
  split at h
  next hbetween =>
      obtain ⟨w, hw, hts₁⟩ := eq_cons_of_isKeyword hbetween
      obtain ⟨⟨low, ts₂⟩, hlow, h⟩ := bind_eq_ok_iff.mp h
      obtain ⟨vs, hvs, hlow⟩ := parseOperand_sound hlow
      simp only at h
      split at h
      next hand =>
          obtain ⟨w', hw', hts₂⟩ := eq_cons_of_isKeyword hand
          obtain ⟨⟨high, ts₃⟩, hhigh, h⟩ := bind_eq_ok_iff.mp h
          obtain ⟨vs', hvs', hhigh⟩ := parseOperand_sound hhigh
          cases h
          refine ⟨_, ?_, .between hus hw hlow hw' hhigh⟩
          rw [hts, hts₁, hvs, hts₂, hvs']
          simp
      next => cases h
  next =>
      split at h
      next op hop =>
          obtain ⟨⟨right, ts₂⟩, hright, h⟩ := bind_eq_ok_iff.mp h
          obtain ⟨vs, hvs, hright⟩ := parseOperand_sound hright
          cases h
          refine ⟨_, ?_, .compare op hus hright⟩
          rw [hts, eq_cons_of_peek hop (by simp), hvs]
          simp
      next => cases h

/-- The readers take tokens that spell what they return, with some fuel. -/
structure Sound (fuel : Nat) : Prop where
  or : ∀ {ts c rest}, parseOr fuel ts = .ok (c, rest) → ∃ us, ts = us ++ rest ∧ Spells .or us c
  orRest : ∀ {before left ts c rest}, Spells .or before left →
    parseOrRest fuel left ts = .ok (c, rest) → ∃ us, ts = us ++ rest ∧ Spells .or (before ++ us) c
  and : ∀ {ts c rest}, parseAnd fuel ts = .ok (c, rest) → ∃ us, ts = us ++ rest ∧ Spells .and us c
  andRest : ∀ {before left ts c rest}, Spells .and before left →
    parseAndRest fuel left ts = .ok (c, rest) →
      ∃ us, ts = us ++ rest ∧ Spells .and (before ++ us) c
  not : ∀ {ts c rest}, parseNot fuel ts = .ok (c, rest) → ∃ us, ts = us ++ rest ∧ Spells .not us c
  primary : ∀ {ts c rest}, parsePrimary fuel ts = .ok (c, rest) →
    ∃ us, ts = us ++ rest ∧ Spells .primary us c

theorem sound (fuel : Nat) : Sound fuel := by
  induction fuel with
  | zero => exact ⟨nofun, nofun, nofun, nofun, nofun, nofun⟩
  | succ fuel ih =>
      refine ⟨?or, ?orRest, ?and, ?andRest, ?not, ?primary⟩
      case or =>
        intro ts c rest h
        rw [parseOr] at h
        obtain ⟨⟨left, ts₁⟩, hleft, h⟩ := bind_eq_ok_iff.mp h
        obtain ⟨us, hts, hus⟩ := ih.and hleft
        obtain ⟨vs, hts₁, hvs⟩ := ih.orRest (.ofAnd hus) h
        exact ⟨us ++ vs, by simp [hts, hts₁], hvs⟩
      case orRest =>
        intro before left ts c rest hbefore h
        rw [parseOrRest] at h
        split at h
        next hor =>
            obtain ⟨w, hw, hts⟩ := eq_cons_of_isKeyword hor
            obtain ⟨⟨right, ts₁⟩, hright, h⟩ := bind_eq_ok_iff.mp h
            obtain ⟨us, hus, hright⟩ := ih.and hright
            obtain ⟨vs, hvs, hc⟩ := ih.orRest (.or hbefore hw hright) h
            refine ⟨.word w :: us ++ vs, ?_, by simpa using hc⟩
            rw [hts, hus, hvs]
            simp
        next =>
            cases h
            exact ⟨[], rfl, by simpa using hbefore⟩
      case and =>
        intro ts c rest h
        rw [parseAnd] at h
        obtain ⟨⟨left, ts₁⟩, hleft, h⟩ := bind_eq_ok_iff.mp h
        obtain ⟨us, hts, hus⟩ := ih.not hleft
        obtain ⟨vs, hts₁, hvs⟩ := ih.andRest (.ofNot hus) h
        exact ⟨us ++ vs, by simp [hts, hts₁], hvs⟩
      case andRest =>
        intro before left ts c rest hbefore h
        rw [parseAndRest] at h
        split at h
        next hand =>
            obtain ⟨w, hw, hts⟩ := eq_cons_of_isKeyword hand
            obtain ⟨⟨right, ts₁⟩, hright, h⟩ := bind_eq_ok_iff.mp h
            obtain ⟨us, hus, hright⟩ := ih.not hright
            obtain ⟨vs, hvs, hc⟩ := ih.andRest (.and hbefore hw hright) h
            refine ⟨.word w :: us ++ vs, ?_, by simpa using hc⟩
            rw [hts, hus, hvs]
            simp
        next =>
            cases h
            exact ⟨[], rfl, by simpa using hbefore⟩
      case not =>
        intro ts c rest h
        rw [parseNot] at h
        split at h
        next hnot =>
            obtain ⟨w, hw, hts⟩ := eq_cons_of_isKeyword hnot
            obtain ⟨⟨inner, ts₁⟩, hinner, h⟩ := bind_eq_ok_iff.mp h
            obtain ⟨us, hus, hc⟩ := ih.not hinner
            cases h
            exact ⟨.word w :: us, by rw [hts, hus]; rfl, .not hw hc⟩
        next =>
            obtain ⟨us, hus, hc⟩ := ih.primary h
            exact ⟨us, hus, .ofPrimary hc⟩
      case primary =>
        intro ts c rest h
        rw [parsePrimary] at h
        split at h
        next hopen =>
            obtain ⟨⟨inner, ts₁⟩, hinner, h⟩ := bind_eq_ok_iff.mp h
            obtain ⟨ts₂, hclose, h⟩ := bind_eq_ok_iff.mp h
            obtain ⟨us, hus, hc⟩ := ih.or hinner
            cases h
            refine ⟨_, ?_, .group hc⟩
            rw [eq_cons_of_peek hopen (by simp), hus, (expect_eq_ok_iff (by simp)).mp hclose]
            simp
        next =>
            split at h
            next f hf =>
                unfold calledFunction? at hf
                split at hf
                next w ts => exact parseCall_sound (ofName?_eq_some_iff.mp hf) h
                next => cases hf
            next => exact parseComparison_sound h

end ItemStore.Condition
