import FormulaSyntax.Formula.Parser
import FormulaSyntax.Proofs.Parsing.Steps

/-!
# Items, and a whole parse

Around the expressions: an item takes tokens that derive it, line breaks between items are passed
over, and items are collected up to the end. `parseOutcome` is the result for a whole parse, on any
parser whatever: **it does not end in a fault, and a formula that it returns derives from the
tokens taken**.

No condition on the parser is needed. Its lookahead may be half filled, or left by a parse that
failed; all that matters is that each token is looked at before it is taken.
-/

set_option autoImplicit false

namespace FormulaSyntax

namespace Parser

/-! ## Items -/

/-- Tokens were taken, and their lexemes are in the relation. -/
def Takes (relation : List Lexeme → Prop) (p q : Parser) : Prop :=
  ∃ taken, p.upcoming = taken ++ q.upcoming ∧ relation (taken.map Token.lexeme)

theorem ensures_required {p : Parser} {t : Token} (hc : p.current = some t) :
    Ensures required p (fun e q => Takes (DerivesItem · e) p q) Faultless := by
  have h := ensures_expression p
  cases hx : expression p with
  | error e q => simpa only [Ensures, required, hx] using h.of_error hx
  | ok r q =>
    have hr := h.of_ok hx
    cases r with
    | some e =>
      obtain ⟨taken, hup, hd⟩ := hr
      simp only [Ensures, required, hx]
      exact ⟨taken, hup, .expression hd⟩
    | none =>
      obtain ⟨rfl, -⟩ := hr
      simp only [Ensures, required, hx, Faultless, unexpected, hc]
      rfl

theorem ensures_assigned (equals : Token) (p : Parser) :
    Ensures (assigned equals) p (fun e q => Takes (Derives .equality · e) p q) Faultless := by
  have h := ensures_expression p
  cases hx : expression p with
  | error e q => simpa only [Ensures, assigned, hx] using h.of_error hx
  | ok r q =>
    have hr := h.of_ok hx
    cases r with
    | some e =>
      simp only [Ensures, assigned, hx]
      exact hr
    | none => simp only [Ensures, assigned, hx, Faultless, ParseError.isInternal]

/-- The two tokens that an assignment is told by are those that it takes without looking again. -/
theorem tokens_of_atAssignment {p : Parser} (h : p.atAssignment = true) :
    ∃ name equals text, p.current = some name ∧ p.next = some equals ∧
      name.lexeme = .name text ∧ equals.lexeme = .symbol .assign := by
  obtain ⟨hname, hequals⟩ : p.currentKind? = some .name ∧ p.nextKind? = some (.symbol .assign) := by
    simpa only [atAssignment, Bool.and_eq_true, beq_iff_eq] using h
  obtain ⟨name, hc, hkind⟩ := current_of_kind hname
  obtain ⟨equals, hn, hkind'⟩ := Option.map_eq_some_iff.mp hequals
  cases hl : name.lexeme with
  | name text => exact ⟨name, equals, text, hc, hn, hl, lexeme_of_kind_symbol hkind'⟩
  | symbol | number | string | truth => simp [Token.kind, Lexeme.kind, hl] at hkind

theorem ensures_assignment {p : Parser} (h : p.atAssignment = true) :
    Ensures assignment p (fun e q => Takes (DerivesItem · e) p q) Faultless := by
  obtain ⟨name, equals, text, hc, hn, hname, hequals⟩ := tokens_of_atAssignment h
  refine (ensures_bump hc).bind ?_
  rintro taken q ⟨rfl, hcurrent, hup⟩
  refine (ensures_bump (hcurrent.trans hn)).bind ?_
  rintro taken' q' ⟨rfl, -, hup'⟩
  have htext : textOf taken = .ok text := by simp only [textOf, hname]
  refine Ensures.bind (m := fun s q => s = text ∧ q = q') (.orFault htext ⟨rfl, rfl⟩) ?_
  rintro s q ⟨rfl, rfl⟩
  refine (ensures_assigned taken' q).bind ?_
  rintro e r ⟨rest, hrest, hd⟩
  refine .pure ⟨taken :: taken' :: rest, ?_, ?_⟩
  · rw [hup, hup', hrest, List.cons_append, List.cons_append]
  · simp only [List.map_cons, hname, hequals]
    exact .assignment s hd

/-- **An item that is read derives from the tokens taken**, an assignment or an expression. -/
theorem ensures_item {p : Parser} {t : Token} (hc : p.current = some t) :
    Ensures item p (fun e q => Takes (DerivesItem · e) p q) Faultless := by
  by_cases h : p.atAssignment = true
  · simpa only [Ensures, item, if_pos h] using ensures_assignment h
  · simpa only [Ensures, item, if_neg h] using ensures_required hc

/-! ## Line breaks -/

theorem skipNewLines_of_other {p : Parser} (h : p.currentKind? ≠ some (.symbol .newLine)) :
    skipNewLines p = .ok () p := by
  rw [skipNewLines]
  split
  · rfl
  · next t hc =>
    have hk : t.kind ≠ .symbol .newLine := by
      intro hk
      exact h (by rw [currentKind?, hc, Option.map_some, hk])
    rw [if_neg hk]

theorem skipNewLines_of_shift {p q : Parser} {passed : Option Token}
    (h : p.currentKind? = some (.symbol .newLine)) (hs : shift p = .ok passed q) :
    skipNewLines p = skipNewLines q := by
  obtain ⟨t, hc, hk⟩ := current_of_kind h
  rw [skipNewLines]
  split
  · simp_all
  · next t' hc' =>
    rw [if_pos (Option.some.inj (hc'.symm.trans hc) ▸ hk)]
    split <;> simp_all

theorem skipNewLines_of_error {p q : Parser} {e : ParseError}
    (h : p.currentKind? = some (.symbol .newLine)) (hs : shift p = .error e q) :
    skipNewLines p = .error e q := by
  obtain ⟨t, hc, hk⟩ := current_of_kind h
  rw [skipNewLines]
  split
  · simp_all
  · next t' hc' =>
    rw [if_pos (Option.some.inj (hc'.symm.trans hc) ▸ hk)]
    split <;> simp_all

theorem ensures_skipNewLines (p : Parser) :
    Ensures skipNewLines p (fun _ q => ∃ n, Takes (· = breaks n) p q) Faultless := by
  by_cases h : p.currentKind? = some (.symbol .newLine)
  · obtain ⟨t, hc, hk⟩ := current_of_kind h
    have hshift := ensures_shift hc
    cases hs : shift p with
    | error e q =>
      simpa only [Ensures, skipNewLines_of_error h hs] using hshift.of_error hs
    | ok passed q =>
      obtain ⟨-, -, hup⟩ := hshift.of_ok hs
      have hrest : Ensures skipNewLines q (fun _ q' => ∃ n, Takes (· = breaks n) p q')
          Faultless := by
        refine (ensures_skipNewLines q).mono ?_
        rintro _ q' ⟨n, taken, htaken, hbreaks⟩
        refine ⟨n + 1, t :: taken, ?_, ?_⟩
        · rw [hup, htaken, List.cons_append]
        · rw [List.map_cons, hbreaks, lexeme_of_kind_symbol hk, breaks, breaks,
            List.replicate_succ]
      simpa only [Ensures, skipNewLines_of_shift h hs] using hrest
  · simp only [Ensures, skipNewLines_of_other h]
    exact ⟨0, [], rfl, rfl⟩
termination_by p.upcoming.length
decreasing_by
  rw [hup]
  exact Nat.lt_succ_self _

/-! ## All items -/

/-- What reading the next item comes to: line breaks and an item, or line breaks and the end. -/
def ItemRead (p : Parser) : Option Expr → Parser → Prop
  | some e, q => ∃ n, Takes (fun ls => ∃ phrase, ls = breaks n ++ phrase ∧ DerivesItem phrase e) p q
  | none, q => q.atEnd = true ∧ ∃ n, Takes (· = breaks n) p q

theorem ensures_nextItem (p : Parser) : Ensures nextItem p (ItemRead p) Faultless := by
  refine (ensures_skipNewLines p).bind ?_
  rintro _ q ⟨n, blank, hup, hbreaks⟩
  by_cases hend : q.atEnd = true
  · simp only [Ensures, itemUnlessEnd, if_pos hend]
    exact ⟨hend, n, blank, hup, hbreaks⟩
  · cases hc : q.current with
    | none => exact absurd (by simp only [atEnd, hc]) hend
    | some t =>
      have h : Ensures (some <$> item) q (ItemRead p) Faultless := by
        refine .map_some ((ensures_item hc).mono ?_)
        rintro e r ⟨taken, htaken, hd⟩
        refine ⟨n, blank ++ taken, ?_, _, ?_, hd⟩
        · rw [hup, htaken, List.append_assoc]
        · rw [List.map_append, hbreaks]
      simpa only [Ensures, itemUnlessEnd, if_neg hend] using h

theorem itemsFrom_of_error {p q : Parser} {e : ParseError} (items : List Expr)
    (milestones : List Milestone) (h : nextItem p = .error e q) :
    itemsFrom p items milestones = ⟨.error e, milestones.reverse, q⟩ := by
  rw [itemsFrom]
  split <;> simp_all

theorem itemsFrom_of_end {p q : Parser} (items : List Expr) (milestones : List Milestone)
    (h : nextItem p = .ok none q) :
    itemsFrom p items milestones = ⟨.ok ⟨items.reverse⟩, milestones.reverse, q⟩ := by
  rw [itemsFrom]
  split <;> simp_all

/-- The milestone that an item passes when it is complete. -/
def milestone (milestones : List Milestone) (q : Parser) : Milestone :=
  ⟨itemsPassed milestones + 1, q.source.asked, q.currentKind?⟩

theorem itemsFrom_of_stray {p q : Parser} {e : Expr} {error : ParseError} (items : List Expr)
    (milestones : List Milestone) (h : nextItem p = .ok (some e) q)
    (hs : strayToken? q = some error) :
    itemsFrom p items milestones
      = ⟨.error error, (milestone milestones q :: milestones).reverse, q⟩ := by
  rw [itemsFrom]
  split <;> simp_all [milestone]

theorem itemsFrom_of_item {p q : Parser} {e : Expr} (items : List Expr)
    (milestones : List Milestone) (h : nextItem p = .ok (some e) q)
    (hs : strayToken? q = none) :
    itemsFrom p items milestones
      = itemsFrom q (e :: items) (milestone milestones q :: milestones) := by
  rw [itemsFrom]
  split <;> simp_all [milestone]

/-- What a parse comes to, behind the items read already. -/
def Parsed (p : Parser) (items : List Expr) (parsing : Parsing) : Prop :=
  match parsing.result with
  | .ok f =>
    parsing.parser.atEnd = true ∧ ∃ es, f.items = items.reverse ++ es ∧
      Takes (DerivesFormula · ⟨es⟩) p parsing.parser
  | .error e => Faultless e parsing.parser

/-- Behind an item that no stray token follows, the line goes on with no further item. -/
theorem not_isInner_of_strayToken? {q : Parser} (hs : strayToken? q = none) {t : Token}
    {rest : List Token} (hup : q.upcoming = t :: rest) : ¬ t.lexeme.IsInner := by
  have hc : q.current = some t := by rw [← upcoming_head?, hup, List.head?_cons]
  intro hinner
  have hne : ¬(t.isEndOfFile = true ∨ t.kind = .symbol .newLine) := by
    rintro (hend | hbreak)
    · exact hinner.2 (lexeme_of_kind_symbol (eq_of_beq hend))
    · exact hinner.1 (lexeme_of_kind_symbol hbreak)
  simp only [strayToken?, hc, if_neg hne, reduceCtorEq] at hs

theorem strayToken?_faultless {q : Parser} {error : ParseError}
    (hs : strayToken? q = some error) : Faultless error q := by
  unfold strayToken? at hs
  split at hs
  · split at hs
    · exact nomatch hs
    · rw [← Option.some.inj hs]
      rfl
  · exact nomatch hs

/-- **Items collected up to the end derive from the tokens taken.** -/
theorem itemsFrom_parsed (p : Parser) (items : List Expr) (milestones : List Milestone) :
    Parsed p items (itemsFrom p items milestones) := by
  have h := ensures_nextItem p
  cases hn : nextItem p with
  | error e q =>
    rw [itemsFrom_of_error items milestones hn]
    exact h.of_error hn
  | ok r q =>
    have hread := h.of_ok hn
    cases r with
    | none =>
      rw [itemsFrom_of_end items milestones hn]
      obtain ⟨hend, n, taken, hup, hbreaks⟩ := hread
      refine ⟨hend, [], (List.append_nil _).symm, taken, hup, ?_⟩
      rw [hbreaks]
      exact .blank n
    | some e =>
      obtain ⟨n, taken, hup, phrase, hphrase, hd⟩ := hread
      cases hs : strayToken? q with
      | some error =>
        rw [itemsFrom_of_stray items milestones hn hs]
        exact strayToken?_faultless hs
      | none =>
        -- The item goes in front of what the rest of the tokens come to.
        have hrest := itemsFrom_parsed q (e :: items) (milestone milestones q :: milestones)
        rw [itemsFrom_of_item items milestones hn hs]
        unfold Parsed at hrest ⊢
        split
        · next f hf =>
          rw [hf] at hrest
          obtain ⟨hend, es, hes, others, hothers, hderives⟩ := hrest
          refine ⟨hend, e :: es, ?_, taken ++ others, ?_, ?_⟩
          · rw [hes, List.reverse_cons, List.append_assoc, List.singleton_append]
          · rw [hup, hothers, List.append_assoc]
          · rw [List.map_append, hphrase, List.append_assoc]
            refine hderives.prepend n hd ?_
            intro t rest hmap
            obtain ⟨t', rest', rfl, rfl, -⟩ := List.map_eq_cons_iff.mp hmap
            exact not_isInner_of_strayToken? hs hothers
        · next error herror =>
          rw [herror] at hrest
          exact hrest
termination_by p.upcoming.length
decreasing_by exact length_upcoming_nextItem_lt hn

/-! ## Whole parses -/

/-- A lexical error is the only way in which priming can fail. -/
theorem ensures_prime (p : Parser) : Ensures prime p (fun _ _ => True) Faultless := by
  refine Ensures.bind (m := fun a q => a = p ∧ q = p) ⟨rfl, rfl⟩ ?_
  rintro _ _ ⟨rfl, rfl⟩
  split
  · exact .pure trivial
  · refine (ensures_shift_any _).bind fun _ q _ => ?_
    exact (ensures_shift_any q).bind fun _ _ _ => trivial

/-- **No parse ends in a fault**, whatever the parser it is begun on. -/
theorem parse_faultless {p : Parser} {e : ParseError} (h : p.parse.result = .error e) :
    e.isInternal = false := by
  have hprime := ensures_prime p
  cases hp : prime p with
  | error e' q =>
    simp only [parse, hp, Except.error.injEq] at h
    rw [← h]
    exact hprime.of_error hp
  | ok u q =>
    have hparsed := itemsFrom_parsed q [] []
    simp only [parse, hp] at h
    simp only [Parsed, h] at hparsed
    exact hparsed

end Parser

end FormulaSyntax
