import FormulaSyntax.Proofs.Parsing.AllItems
import FormulaSyntax.Proofs.Parsing.Phrases

/-!
# Formulas: the parser and the grammar agree

On a list of tokens with an end marker behind it, one parse gives a formula if and only if the
tokens derive it (`parse_eq_ok_iff_derives`). One half is `itemsFrom_parsed`: a formula that is
returned derives from the tokens that were taken, and those are all up to the end marker. The
other half goes back over the derivation with `run_phrase`.

The second main result is about all feeds, with errors and gaps in any place, and about parsers
that are used again after a failure: no parse ends in a fault (`parse_ne_internal`).
-/

set_option autoImplicit false

namespace FormulaSyntax

namespace Parser

/-! ## Items that stand in front of the parser -/

/-- What may stand behind an item: a line break, the end marker or nothing. -/
def EndsItem (rest : List Token) : Prop := ∀ t tail, rest = t :: tail → ¬ t.lexeme.IsInner

theorem symbol_of_not_isInner {l : Lexeme} (h : ¬ l.IsInner) :
    l = .symbol .newLine ∨ l = .symbol .endOfFile := by
  by_cases hbreak : l = .symbol .newLine
  · exact Or.inl hbreak
  · by_cases hend : l = .symbol .endOfFile
    · exact Or.inr hend
    · exact absurd ⟨hbreak, hend⟩ h

theorem EndsItem.ends {rest : List Token} (h : EndsItem rest) (l : Layer) : Ends l rest := by
  cases rest with
  | nil => exact ⟨nofun, nofun⟩
  | cons t tail =>
    rcases symbol_of_not_isInner (h t tail rfl) with ht | ht
    · exact ends_of_symbol l tail ht rfl rfl
    · exact ends_of_symbol l tail ht rfl rfl

theorem strayToken?_onTokens {rest : List Token} (h : EndsItem rest) (asked : Nat) :
    strayToken? (onTokens rest asked) = none := by
  cases rest with
  | nil => rfl
  | cons t tail =>
    rw [strayToken?, current_onTokens, List.head?_cons]
    have hk : t.kind = t.lexeme.kind := rfl
    rcases symbol_of_not_isInner (h t tail rfl) with ht | ht
    · rw [ht] at hk
      exact if_pos (Or.inr hk)
    · rw [ht] at hk
      exact if_pos (Or.inl (by rw [Token.isEndOfFile, hk]; rfl))

/-- With one operand, nothing pending and an item's end ahead, the expression is complete. -/
theorem run_complete {rest : List Token} (h : EndsItem rest) (e : Expr) (asked : Nat) :
    run (Stacks.empty.pushOperand e) .operator (onTokens rest asked)
      = .ok (some e) (onTokens rest asked) := by
  refine run_of_done ?_
  show operatorStep _ _ = _
  have hf : Folded (Stacks.empty.pushOperand e).pending := by nofun
  rw [operatorStep_of_fold (foldPrefixes_of_folded hf)]
  cases rest with
  | nil =>
    rw [behindOperand_of_none rfl]
    rfl
  | cons t tail =>
    have hk : t.kind = t.lexeme.kind := rfl
    have hop : BinaryOp.ofKind? t.kind = none := by
      rcases symbol_of_not_isInner (h t tail rfl) with ht | ht <;> rw [hk, ht] <;> rfl
    rw [behindOperand_of_other rfl rfl hop]
    rfl

theorem expression_phrase {phrase : List Lexeme} {e : Expr} (h : Derives .equality phrase e)
    {tokens rest : List Token} (htokens : tokens.map Token.lexeme = phrase)
    (hrest : EndsItem rest) (asked : Nat) :
    expression (onTokens (tokens ++ rest) asked)
      = .ok (some e) (onTokens rest (asked + tokens.length)) := by
  have hroom : Admits .equality Stacks.empty.pending := trivial
  rw [expression, run_phrase h asked htokens hroom (hrest.ends _), run_complete hrest]

/-- A phrase is not taken for an assignment: there is no equals sign in it, and none behind. -/
theorem atAssignment_phrase {phrase : List Lexeme} {e : Expr} (h : Derives .equality phrase e)
    {tokens rest : List Token} (htokens : tokens.map Token.lexeme = phrase)
    (hrest : EndsItem rest) (asked : Nat) :
    (onTokens (tokens ++ rest) asked).atAssignment = false := by
  have hassign : ∀ t ∈ (tokens ++ rest)[1]?, t.kind ≠ .symbol .assign := by
    intro t ht hk
    have hl := lexeme_of_kind_symbol hk
    match tokens, htokens with
    | [], htokens => exact h.ne_nil htokens.symm
    | [_], _ =>
      cases rest with
      | nil => exact nomatch ht
      | cons u tail =>
        obtain rfl : u = t := Option.some.inj ht
        rcases symbol_of_not_isInner (hrest u tail rfl) with hu | hu
        · exact absurd (hu.symm.trans hl) (by decide)
        · exact absurd (hu.symm.trans hl) (by decide)
    | _ :: u :: _, htokens =>
      obtain rfl : u = t := Option.some.inj ht
      have hmem : u.lexeme ∈ phrase := by
        rw [← htokens]
        simp
      exact (h.inPhrase u.lexeme hmem).2 hl
  rw [atAssignment, Bool.and_eq_false_iff]
  refine Or.inr ?_
  rw [beq_eq_false_iff_ne, nextKind?]
  intro hk
  obtain ⟨t, ht, hkind⟩ := Option.map_eq_some_iff.mp hk
  exact hassign t ht hkind

theorem item_phrase {phrase : List Lexeme} {e : Expr} (h : DerivesItem phrase e)
    {tokens rest : List Token} (htokens : tokens.map Token.lexeme = phrase)
    (hrest : EndsItem rest) (asked : Nat) :
    item (onTokens (tokens ++ rest) asked) = .ok e (onTokens rest (asked + tokens.length)) := by
  cases h with
  | expression h =>
    have hno : ¬ (onTokens (tokens ++ rest) asked).atAssignment = true := by
      rw [atAssignment_phrase h htokens hrest]
      exact Bool.false_ne_true
    simp only [item, if_neg hno, required, expression_phrase h htokens hrest]
  | @assignment target phrase e h =>
    obtain ⟨name, tokens, rfl, hname, htokens⟩ := List.map_eq_cons_iff.mp htokens
    obtain ⟨equals, tokens, rfl, hequals, htokens⟩ := List.map_eq_cons_iff.mp htokens
    have hyes : (onTokens (name :: equals :: tokens ++ rest) asked).atAssignment = true := by
      have hk : name.kind = name.lexeme.kind := rfl
      have hk' : equals.kind = equals.lexeme.kind := rfl
      rw [hname] at hk
      rw [hequals] at hk'
      show (some name.kind == some .name && some equals.kind == some (.symbol .assign)) = true
      rw [hk, hk']
      rfl
    have htext : textOf name = .ok target := by simp only [textOf, hname]
    have hassigned : assigned equals (onTokens (tokens ++ rest) (asked + 1 + 1))
        = .ok e (onTokens rest (asked + 1 + 1 + tokens.length)) := by
      simp only [assigned, expression_phrase h htokens hrest]
    have hlength : asked + (name :: equals :: tokens).length = asked + 1 + 1 + tokens.length := by
      simp only [List.length_cons]
      omega
    rw [item, if_pos hyes, assignment, List.cons_append, List.cons_append,
      bind_of_ok (bump_onTokens name _ asked), bind_of_ok (bump_onTokens equals _ _), htext, hlength]
    show (assigned equals >>= _) _ = _
    rw [bind_of_ok hassigned]
    rfl

/-! ## Formulas that stand in front of the parser -/

theorem endsItem_of_newLine {t : Token} (ht : t.lexeme = .symbol .newLine) (rest : List Token) :
    EndsItem (t :: rest) := by
  rintro u tail heq hinner
  obtain ⟨rfl, -⟩ := List.cons.inj heq
  exact hinner.1 ht

theorem newLine_of_breaks {n : Nat} {blank : List Token} (h : blank.map Token.lexeme = breaks n) :
    ∀ t ∈ blank, t.lexeme = .symbol .newLine := by
  intro t ht
  apply List.eq_of_mem_replicate (n := n)
  rw [← breaks, ← h]
  exact List.mem_map_of_mem ht

theorem EndsItem.behind_breaks {blank rest : List Token}
    (hblank : ∀ t ∈ blank, t.lexeme = .symbol .newLine) (hrest : EndsItem rest) :
    EndsItem (blank ++ rest) := by
  cases blank with
  | nil => exact hrest
  | cons t blank => exact endsItem_of_newLine (hblank t List.mem_cons_self) _

theorem allItems_breaks {blank : List Token} (h : ∀ t ∈ blank, t.lexeme = .symbol .newLine)
    (rest : List Token) (asked : Nat) :
    allItems (onTokens (blank ++ rest) asked) = allItems (onTokens rest (asked + blank.length)) := by
  induction blank generalizing asked with
  | nil => rfl
  | cons t blank ih =>
    have hk : (onTokens (t :: (blank ++ rest)) asked).currentKind? = some (.symbol .newLine) := by
      rw [currentKind?_onTokens, List.head?_cons, Option.map_some, Token.kind,
        h t List.mem_cons_self]
      rfl
    have hnext : nextItem (onTokens (t :: (blank ++ rest)) asked)
        = nextItem (onTokens (blank ++ rest) (asked + 1)) := by
      simp only [nextItem, bind, EStateM.bind, skipNewLines_of_shift hk (shift_onTokens _ asked),
        List.tail_cons]
    have hall : allItems (onTokens (t :: (blank ++ rest)) asked)
        = allItems (onTokens (blank ++ rest) (asked + 1)) := by
      simp only [allItems_eq, bind, EStateM.bind, hnext]
    rw [List.cons_append, hall, ih (fun u hu => h u (List.mem_cons_of_mem _ hu)), List.length_cons,
      Nat.add_assoc, Nat.add_comm 1]

/-- The next item, with its end ahead. -/
theorem nextItem_phrase {phrase : List Lexeme} {e : Expr} (h : DerivesItem phrase e)
    {tokens rest : List Token} (htokens : tokens.map Token.lexeme = phrase)
    (hrest : EndsItem rest) (asked : Nat) :
    nextItem (onTokens (tokens ++ rest) asked)
      = .ok (some e) (onTokens rest (asked + tokens.length)) := by
  obtain ⟨l, ls, rfl, hinner⟩ := h.exists_cons
  obtain ⟨t, tail, rfl, rfl, -⟩ := List.map_eq_cons_iff.mp htokens
  have hskip : skipNewLines (onTokens (t :: tail ++ rest) asked)
      = .ok () (onTokens (t :: tail ++ rest) asked) := by
    refine skipNewLines_of_other ?_
    intro hk
    exact hinner.1 (lexeme_of_kind_symbol (Option.some.inj hk))
  have hmore : ¬ (onTokens (t :: tail ++ rest) asked).atEnd = true := by
    intro hend
    exact hinner.2 (lexeme_of_kind_symbol (eq_of_beq hend))
  rw [nextItem, bind_of_ok hskip]
  simp only [itemUnlessEnd, if_neg hmore]
  exact map_some_eq_ok.mpr ⟨e, rfl, item_phrase h htokens hrest _⟩

theorem allItems_item {phrase : List Lexeme} {e : Expr} (h : DerivesItem phrase e)
    {tokens rest : List Token} (htokens : tokens.map Token.lexeme = phrase)
    (hrest : EndsItem rest) (asked : Nat) :
    allItems (onTokens (tokens ++ rest) asked)
      = prepended [e] (allItems (onTokens rest (asked + tokens.length))) := by
  have hitem : allItems (onTokens (tokens ++ rest) asked)
      = moreItems (some e) (onTokens rest (asked + tokens.length)) :=
    (congrFun allItems_eq _).trans (bind_of_ok (nextItem_phrase h htokens hrest asked))
  have hrefuse : refuseStray (onTokens rest (asked + tokens.length))
      = .ok () (onTokens rest (asked + tokens.length)) := by
    simp only [refuseStray, strayToken?_onTokens hrest]
  rw [hitem, moreItems, bind_of_ok hrefuse]
  cases hall : allItems (onTokens rest (asked + tokens.length)) with
  | ok es q =>
    rw [bind_of_ok hall]
    rfl
  | error error q => rw [bind_of_error hall, prepended]

/-- **Items that stand in front of the parser are read, in their order.** The induction is on the
derivation; the line breaks between two items end the first one, and are then passed over. -/
theorem allItems_items {phrases : List Lexeme} {es : List Expr} (h : DerivesItems phrases es) :
    ∀ {tokens rest : List Token}, tokens.map Token.lexeme = phrases → EndsItem rest →
      ∀ asked, allItems (onTokens (tokens ++ rest) asked)
        = prepended es (allItems (onTokens rest (asked + tokens.length))) := by
  induction h with
  | last h =>
    intro tokens rest htokens hrest asked
    exact allItems_item h htokens hrest asked
  | @more n phrase others e es h hs ih =>
    intro tokens rest htokens hrest asked
    obtain ⟨first, behind, rfl, hfirst, hbehind⟩ := List.map_eq_append_iff.mp htokens
    obtain ⟨between, second, rfl, hbetween, hsecond⟩ := List.map_eq_append_iff.mp hbehind
    have hbreaks := newLine_of_breaks hbetween
    have hends : EndsItem (between ++ (second ++ rest)) := by
      cases between with
      | nil => exact nomatch hbetween
      | cons t between => exact endsItem_of_newLine (hbreaks t List.mem_cons_self) _
    rw [List.append_assoc, List.append_assoc, allItems_item h hfirst hends asked,
      allItems_breaks hbreaks, ih hsecond hrest, prepended_append]
    simp only [List.length_append, Nat.add_assoc, List.singleton_append]

/-- A formula that stands in front of the parser is read, and what is behind it comes after. -/
theorem allItems_formula {tokens rest : List Token} {f : Formula}
    (h : DerivesFormula (tokens.map Token.lexeme) f) (hrest : EndsItem rest) (asked : Nat) :
    allItems (onTokens (tokens ++ rest) asked)
      = prepended f.items (allItems (onTokens rest (asked + tokens.length))) := by
  generalize hls : tokens.map Token.lexeme = ls at h
  cases h with
  | blank n =>
    rw [allItems_breaks (newLine_of_breaks hls)]
    exact (prepended_nil _).symm
  | items before after hs =>
    obtain ⟨blank, behind, rfl, hblank, hbehind⟩ := List.map_eq_append_iff.mp hls
    obtain ⟨phrases, last, rfl, hphrases, hlast⟩ := List.map_eq_append_iff.mp hbehind
    have hafter := newLine_of_breaks hlast
    rw [List.append_assoc, List.append_assoc, allItems_breaks (newLine_of_breaks hblank),
      allItems_items hs hphrases (hrest.behind_breaks hafter), allItems_breaks hafter]
    simp only [List.length_append, Nat.add_assoc]

section Formulas

variable {stop : Token} (hstop : stop.lexeme = .symbol .endOfFile)

include hstop

theorem endsItem_stop : EndsItem [stop] := by
  rintro t tail heq hinner
  obtain ⟨rfl, -⟩ := List.cons.inj heq
  exact hinner.2 hstop

theorem allItems_stop (asked : Nat) :
    allItems (onTokens [stop] asked) = .ok [] (onTokens [stop] asked) := by
  have hk : stop.kind = .endOfFile := by rw [Token.kind, hstop]; rfl
  have hskip : skipNewLines (onTokens [stop] asked) = .ok () (onTokens [stop] asked) := by
    refine skipNewLines_of_other ?_
    rw [currentKind?_onTokens, List.head?_cons, Option.map_some, hk]
    decide
  have hend : (onTokens [stop] asked).atEnd = true := by
    show (stop.kind == .endOfFile) = true
    rw [hk]
    rfl
  have hnext : nextItem (onTokens [stop] asked) = .ok none (onTokens [stop] asked) := by
    rw [nextItem, bind_of_ok hskip]
    simp only [itemUnlessEnd, if_pos hend]
  exact (congrFun allItems_eq _).trans (bind_of_ok hnext)

/-- A formula that stands in front of a fresh parser, with the end marker behind it, is read. -/
theorem parse_of_derives {tokens : List Token} {f : Formula}
    (h : DerivesFormula (tokens.map Token.lexeme) f) :
    (ofTokens (tokens ++ [stop])).parse.result = .ok f := by
  have hall := allItems_formula h (endsItem_stop hstop) 2
  rw [allItems_stop hstop, prepended, List.append_nil] at hall
  exact (parse_of_prime (r := .ok f.items) (prime_ofTokens _) hall).1

omit hstop in
/-- A formula that a parse returns derives from tokens taken, behind which the end is reached. -/
theorem derives_of_parse {tokens : List Token} {f : Formula}
    (h : (ofTokens tokens).parse.result = .ok f) :
    ∃ taken rest, tokens = taken ++ rest ∧ DerivesFormula (taken.map Token.lexeme) f ∧
      ∀ t tail, rest = t :: tail → t.isEndOfFile = true := by
  have hparsed := itemsFrom_parsed (onTokens tokens 2) [] []
  simp only [parse, prime_ofTokens] at h
  simp only [Parsed, h] at hparsed
  obtain ⟨hend, es, hes, taken, hup, hderives⟩ := hparsed
  rw [upcoming_onTokens] at hup
  refine ⟨taken, _, hup, ?_, ?_⟩
  · obtain rfl : f = ⟨es⟩ := by
      cases f
      simpa using hes
    exact hderives
  · rintro t tail hrest
    have hc := upcoming_head? (itemsFrom (onTokens tokens 2) [] []).parser
    rw [hrest, List.head?_cons] at hc
    simpa only [atEnd, ← hc] using hend

/-- If no token but the last is an end marker, a formula that a parse returns derives from all
tokens but the last. -/
theorem derives_of_parse_stop {tokens : List Token} {f : Formula}
    (hts : ∀ t ∈ tokens, t.isEndOfFile = false)
    (h : (ofTokens (tokens ++ [stop])).parse.result = .ok f) :
    DerivesFormula (tokens.map Token.lexeme) f := by
  obtain ⟨taken, rest, hsplit, hderives, hrest⟩ := derives_of_parse h
  cases rest with
  | nil =>
    -- The end marker would be a token of the formula.
    rw [List.append_nil] at hsplit
    have hmem : Lexeme.symbol .endOfFile ∈ taken.map Token.lexeme := by
      rw [← hsplit, ← hstop]
      simp
    exact absurd rfl (hderives.ne_endOfFile _ hmem)
  | cons t tail =>
    -- The end was reached at the first end marker, which is the one behind the tokens.
    rcases List.append_eq_append_iff.mp hsplit with ⟨more, rfl, hmore⟩ | ⟨more, rfl, hmore⟩
    · cases more with
      | nil => simpa only [List.append_nil] using hderives
      | cons u us => simp at hmore
    · cases more with
      | nil => simpa only [List.append_nil] using hderives
      | cons u us =>
        obtain ⟨rfl, -⟩ := List.cons.inj hmore
        have hu : t.isEndOfFile = false := hts t (by simp)
        rw [hrest t tail rfl] at hu
        exact nomatch hu

end Formulas

/-! ## Main results -/

/-- **The parser accepts the formulas of the grammar and no other lists of tokens, and the tree it
builds is the one that the grammar gives.** -/
theorem parse_eq_ok_iff_derives {tokens : List Token}
    (hts : ∀ t ∈ tokens, t.isEndOfFile = false) (span : Span) (f : Formula) :
    (ofTokens (tokens ++ [.symbol .endOfFile span])).parse.result = .ok f ↔
      DerivesFormula (tokens.map Token.lexeme) f :=
  ⟨derives_of_parse_stop rfl hts, parse_of_derives rfl⟩

/-- The tokens of `a - b - c * d`. -/
def differences : List Token :=
  [.name "a" ⟨0, 1⟩, .symbol .minus ⟨2, 3⟩, .name "b" ⟨4, 5⟩, .symbol .minus ⟨6, 7⟩,
    .name "c" ⟨8, 9⟩, .symbol .star ⟨10, 11⟩, .name "d" ⟨12, 13⟩]

/-- Differences group to the left, and the product is the operand of the second one. -/
theorem derives_differences :
    (∀ t ∈ differences, t.isEndOfFile = false) ∧
      DerivesFormula (differences.map Token.lexeme)
        ⟨[.binary (.binary (.ident ⟨"a"⟩) .sub (.ident ⟨"b"⟩)) .sub
          (.binary (.ident ⟨"c"⟩) .mul (.ident ⟨"d"⟩))]⟩ := by
  have hts : ∀ t ∈ differences, t.isEndOfFile = false := by decide
  refine ⟨hts, (parse_eq_ok_iff_derives hts ⟨0, 0⟩ _).mp ?_⟩
  decide +kernel

/-- The parser that is left after a number of parses, whatever came of them. -/
def afterParses : Nat → Parser → Parser
  | 0, p => p
  | calls + 1, p => afterParses calls p.parse.parser

/-- **No parse ever ends in a fault**: not on a feed with errors and gaps in any place, and not on
a parser that has been used before, with whatever success. -/
theorem parse_ne_internal (answers : List (Option (Except LexError Token))) (calls : Nat)
    (fault : Fault) :
    (afterParses calls (ofFeed (.ofAnswers answers))).parse.result ≠ .error (.internal fault) := by
  intro h
  exact absurd (parse_faultless h) Bool.noConfusion

end Parser

end FormulaSyntax
