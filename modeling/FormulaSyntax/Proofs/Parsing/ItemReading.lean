import FormulaSyntax.Proofs.Parsing.Formulas
import FormulaSyntax.Proofs.Parsing.StepReading

/-!
# What items read

Items, line breaks and whole formulas decide on the tokens in front of them as expressions do. If
they fail, **what was taken begins an item, and behind the items before it begins a formula**
(`decides_item`, `decides_allItems`).

An item is an assignment or an expression by both tokens in view. That choice is as good further
on, or with something else behind, because at least the first of the two is taken.

The parser collects items in a list that it carries along. `allItems` is the same without that
list: the first item and then all others. It is the form in which parts of the parser are joined.
-/

set_option autoImplicit false

namespace FormulaSyntax

/-- Lexemes that some further ones make an item of. -/
def BeginsItem (read : List Lexeme) : Prop := ∃ others e, DerivesItem (read ++ others) e

theorem BeginsPhrase.beginsItem {read : List Lexeme} (h : BeginsPhrase read) : BeginsItem read := by
  obtain ⟨others, e, hd⟩ := h
  exact ⟨others, e, .expression hd⟩

theorem BeginsPhrase.beginsAssignment {read : List Lexeme} (h : BeginsPhrase read)
    (target : String) : BeginsItem (.name target :: .symbol .assign :: read) := by
  obtain ⟨others, e, hd⟩ := h
  exact ⟨others, _, .assignment target hd⟩

namespace Parser

/-- A symbol that the token in front is not, and that is no end, is not in view. -/
theorem kind_ne_of_alike {d : Nat} {tokens : List Token} {seen : Option Token} {s : Symbol}
    (hlike : Alike d tokens.head? seen) (hs : s ≠ .endOfFile)
    (h : ∀ t rest, tokens = t :: rest → t.kind ≠ .symbol s) :
    seen.map Token.kind ≠ some (.symbol s) := by
  intro hk
  rcases ended_or_cons tokens with hended | ⟨t, rest, rfl, ht⟩
  · rcases kind_of_ended (hlike.of_ended hended) with hk' | hk'
    · cases hk'.symm.trans hk
    · exact hs (TokenKind.symbol.inj (Option.some.inj (hk'.symm.trans hk))).symm
  · rw [hlike.of_token ht] at hk
    exact h t rest rfl (Option.some.inj hk)

/-! ## Items -/

/-- What is made of an expression that has to be there. -/
def orUnexpected : Option Expr → ParseM Expr
  | some e => pure e
  | none => fun p => .error (unexpected p) p

/-- The parts of an item in the form in which readings are joined: an expression, and what is made
    of it. -/
theorem required_eq : required = expression >>= orUnexpected := by
  funext p
  rw [required]
  cases hx : expression p with
  | error e q => rw [bind_of_error hx]
  | ok r q =>
    rw [bind_of_ok hx]
    cases r <;> rfl

theorem decides_required {t : Token} (ht : t.isEndOfFile = false) (rest : List Token) :
    Decides (fun _ => required) (t :: rest)
      (fun taken _ a => TakesName (t :: rest) taken ∧ ∃ e, a = fun _ => e)
      (fun taken => TakesName (t :: rest) taken ∧ BeginsItem (taken.map Token.lexeme)) := by
  simp only [required_eq]
  refine Decides.bind (decides_expression (t :: rest)) ?_ ?_
  · rintro taken ⟨hname, hbegins⟩
    exact ⟨hname, hbegins.beginsItem⟩
  rintro taken others _ htokens ⟨hname, result, rfl, hnone⟩
  cases result with
  | some e =>
    refine .pure ⟨?_, e, rfl⟩
    rwa [List.append_nil]
  | none =>
    obtain rfl := hnone rfl
    obtain rfl : t :: rest = others := htokens
    refine Decides.congr ?_ (.throw (.syntactic (.unexpectedToken t.kind) t.span) ⟨hname, ?_⟩)
    · intro d q hlike
      simp only [orUnexpected, unexpected, hlike.of_token ht]
      rfl
    · exact (Opens.beginsPhrase .empty).beginsItem

def orEmpty (equals : Token) : Option Expr → ParseM Expr
  | some e => pure e
  | none => throw (.syntactic .emptyAssignment equals.span)

theorem assigned_eq (equals : Token) : assigned equals = expression >>= orEmpty equals := by
  funext p
  rw [assigned]
  cases hx : expression p with
  | error e q => rw [bind_of_error hx]
  | ok r q =>
    rw [bind_of_ok hx]
    cases r <;> rfl

theorem decides_assigned (equals : Token) (tokens : List Token) :
    Decides (fun d => assigned (equals.move d)) tokens (fun _ _ a => ∃ e, a = fun _ => e)
      (fun taken => BeginsPhrase (taken.map Token.lexeme)) := by
  simp only [assigned_eq]
  refine Decides.bind (decides_expression tokens) (fun _ h => h.2) ?_
  rintro taken others _ - ⟨-, result, rfl, hnone⟩
  cases result with
  | some e => exact .pure ⟨e, rfl⟩
  | none =>
    obtain rfl := hnone rfl
    exact .throw (.syntactic .emptyAssignment equals.span) (Opens.beginsPhrase .empty)

/-- The name and the sign in front are taken in any case, so if the right-hand side fails they
    begin the item. -/
theorem decides_assignment {name equals : Token} {text : String} (hname : name.lexeme = .name text)
    (hequals : equals.lexeme = .symbol .assign) (rest : List Token) :
    Decides (fun _ => assignment) (name :: equals :: rest)
      (fun taken _ a => taken ≠ [] ∧ ∃ e, a = fun _ => e)
      (fun taken => taken ≠ [] ∧ BeginsItem (taken.map Token.lexeme)) := by
  have htext : ∀ d, textOf (name.move d) = .ok text := by
    intro d
    simp only [textOf, Token.lexeme_move, hname]
  refine .bump_bind (isEndOfFile_of_lexeme (by simp [hname])) ?_
  refine .bump_bind (isEndOfFile_of_lexeme (by simp [hequals])) ?_
  simp only [htext]
  show Decides (fun d => assigned (equals.move d) >>= fun value =>
    pure (Expr.assign ⟨text⟩ value)) rest _ _
  refine Decides.bind (decides_assigned equals rest) ?_ ?_
  · intro taken hbegins
    refine ⟨List.cons_ne_nil _ _, ?_⟩
    simpa only [List.map_cons, hname, hequals] using hbegins.beginsAssignment text
  · rintro taken others _ - ⟨e, rfl⟩
    exact .pure ⟨List.cons_ne_nil _ _, _, rfl⟩

theorem atAssignment_eq_false_of_current {p : Parser} (h : p.currentKind? ≠ some .name) :
    p.atAssignment = false := by
  rw [atAssignment, beq_eq_false_iff_ne.mpr h, Bool.false_and]

theorem atAssignment_eq_false_of_next {p : Parser} (h : p.nextKind? ≠ some (.symbol .assign)) :
    p.atAssignment = false := by
  rw [atAssignment, beq_eq_false_iff_ne.mpr h, Bool.and_false]

/-- Both tokens in view decide what kind of item it is. The first one is taken in either case, as
    the name of an assignment or at the beginning of an expression, so a decision on the second
    one is kept to. -/
theorem decides_item {t : Token} (ht : t.isEndOfFile = false) (rest : List Token) :
    Decides (fun _ => item) (t :: rest) (fun _ _ a => ∃ e, a = fun _ => e)
      (fun taken => BeginsItem (taken.map Token.lexeme)) := by
  have hrequired := decides_required ht rest
  have hitem : ∀ {q : Parser}, q.atAssignment = false → item q = required q := by
    intro q hq
    simp only [item, hq, Bool.false_eq_true, if_false]
  cases hl : t.lexeme with
  | name text =>
    -- Here the next token counts as well. But the name is taken in either case.
    by_cases hassign : ∃ equals others, rest = equals :: others ∧ equals.lexeme = .symbol .assign
    · obtain ⟨equals, others, rfl, hequals⟩ := hassign
      have hassignment := decides_assignment hl hequals others
      refine (hassignment.congr_pair ?_ (fun _ _ _ h => h.1) (fun _ h => h.1)).mono ?_ ?_
      · intro d q hcurrent hnext
        have hend : equals.isEndOfFile = false := isEndOfFile_of_lexeme (by simp [hequals])
        have hname : q.currentKind? = some .name := by
          rw [currentKind?_of_alike hcurrent ht, Token.kind, hl]
          rfl
        have hnextKind : q.nextKind? = some (.symbol .assign) := by
          rw [nextKind?, hnext.of_token hend, Option.map_some, Token.kind_move, Token.kind, hequals]
          rfl
        simp only [item, atAssignment, hname, hnextKind, beq_self_eq_true, Bool.and_self, if_true]
      · exact fun _ _ _ _ h => h.2
      · exact fun _ _ _ h => h.2
    · have hnot : ∀ u others, rest = u :: others → u.kind ≠ .symbol .assign := by
        intro u others heq hk
        exact hassign ⟨u, others, heq, lexeme_of_kind_symbol hk⟩
      have htakes : ∀ {taken}, TakesName (t :: rest) taken → taken ≠ [] := fun h =>
        h t rest text rfl hl
      refine (hrequired.congr_pair ?_ (fun _ _ _ h => htakes h.1) (fun _ h => htakes h.1)).mono ?_ ?_
      · intro d q _ hnext
        rw [List.getElem?_cons_succ, ← List.head?_eq_getElem?] at hnext
        exact hitem (atAssignment_eq_false_of_next (kind_ne_of_alike hnext (by decide) hnot))
      · exact fun _ _ _ _ h => h.2
      · exact fun _ _ _ h => h.2
  | symbol | number | string | truth =>
    refine Decides.congr ?_ (hrequired.mono ?_ ?_)
    · intro d q hlike
      apply hitem
      apply atAssignment_eq_false_of_current
      rw [currentKind?_of_alike hlike ht, Token.kind, hl]
      intro hname
      cases hname
    · exact fun _ _ _ _ h => h.2
    · exact fun _ _ _ h => h.2

/-! ## Line breaks -/

/-- Passing over line breaks, as a part of the parser. -/
def lineBreaks : ParseM Unit := skipNewLines

/-- Line breaks are passed one at a time, which makes their reading an induction on the tokens. -/
theorem lineBreaks_eq_bind {p : Parser} (h : p.currentKind? = some (.symbol .newLine)) :
    lineBreaks p = (shift >>= fun _ => lineBreaks) p := by
  cases hs : shift p with
  | error e q =>
    rw [bind_of_error hs]
    exact skipNewLines_of_error h hs
  | ok passed q =>
    rw [bind_of_ok hs]
    exact skipNewLines_of_shift h hs

theorem decides_lineBreaks (tokens : List Token) :
    Decides (fun _ => lineBreaks) tokens
      (fun taken _ _ => ∃ n, taken.map Token.lexeme = breaks n) (fun _ => False) := by
  have hstay : ∀ {tokens : List Token},
      (∀ t rest, tokens = t :: rest → t.kind ≠ .symbol .newLine) →
        Decides (fun _ => lineBreaks) tokens
          (fun taken _ _ => ∃ n, taken.map Token.lexeme = breaks n) (fun _ => False) := by
    intro tokens h
    refine Decides.congr ?_ (.pure (a := fun _ => ()) ⟨0, rfl⟩)
    intro d q hlike
    exact skipNewLines_of_other (kind_ne_of_alike hlike (by decide) h)
  induction tokens with
  | nil => exact hstay nofun
  | cons t rest ih =>
    by_cases hk : t.kind = .symbol .newLine
    · have ht : t.isEndOfFile = false := by
        rw [Token.isEndOfFile, hk]
        rfl
      have hshift : Decides (fun _ => shift) (t :: rest)
          (fun taken others _ => taken = [t] ∧ others = rest) (fun _ => False) :=
        .of_reads (.shift ht) ⟨rfl, rfl⟩
      have hmore : Decides (fun _ => shift >>= fun _ => lineBreaks) (t :: rest)
          (fun taken _ _ => ∃ n, taken.map Token.lexeme = breaks n) (fun _ => False) := by
        refine Decides.bind hshift (fun _ h => h) ?_
        rintro _ _ _ - ⟨rfl, rfl⟩
        refine ih.mono ?_ (fun _ _ _ h => h)
        rintro more _ _ - ⟨n, hbreaks⟩
        refine ⟨n + 1, ?_⟩
        rw [List.map_append, hbreaks, List.map_singleton, lexeme_of_kind_symbol hk]
        rfl
      refine Decides.congr ?_ hmore
      intro d q hlike
      apply lineBreaks_eq_bind
      rw [currentKind?_of_alike hlike ht, hk]
    · apply hstay
      rintro u others heq
      obtain ⟨rfl, -⟩ := List.cons.inj heq
      exact hk

/-! ## The next item -/

theorem decides_itemUnlessEnd (tokens : List Token) :
    Decides (fun _ => itemUnlessEnd) tokens (fun _ _ a => ∃ r, a = fun _ => r)
      (fun taken => BeginsItem (taken.map Token.lexeme)) := by
  have hend : ∀ {q : Parser}, q.atEnd = true ↔ Ended q.current := by
    intro q
    unfold atEnd
    split <;> simp [*, Ended]
  rcases ended_or_cons tokens with hended | ⟨t, rest, rfl, ht⟩
  · refine Decides.congr ?_ (.pure (a := fun _ => none) ⟨none, rfl⟩)
    intro d q hlike
    exact if_pos (hend.mpr (hlike.of_ended hended))
  · have hitem : Decides (fun _ => some <$> item) (t :: rest) (fun _ _ a => ∃ r, a = fun _ => r)
        (fun taken => BeginsItem (taken.map Token.lexeme)) := by
      apply Decides.map_some
      refine (decides_item ht rest).mono ?_ (fun _ _ _ h => h)
      rintro _ _ _ - ⟨e, rfl⟩
      exact ⟨some e, rfl⟩
    refine Decides.congr ?_ hitem
    intro d q hlike
    refine if_neg ?_
    rw [hend, hlike.of_token ht]
    intro hended
    exact Bool.false_ne_true (ht.symm.trans (hended (t.move d) rfl))

/-- Lexemes that line breaks and the beginning of an item make up. -/
def BeginsNext (read : List Lexeme) : Prop := ∃ n more, read = breaks n ++ more ∧ BeginsItem more

theorem decides_nextItem (tokens : List Token) :
    Decides (fun _ => nextItem) tokens (fun _ _ a => ∃ r, a = fun _ => r)
      (fun taken => BeginsNext (taken.map Token.lexeme)) := by
  refine Decides.bind (decides_lineBreaks tokens) (fun _ h => h.elim) ?_
  rintro taken rest _ - ⟨n, hbreaks⟩
  refine (decides_itemUnlessEnd rest).mono (fun _ _ _ _ h => h) ?_
  rintro more _ - hbegins
  exact ⟨n, more.map Token.lexeme, by rw [List.map_append, hbreaks], hbegins⟩

/-- The token behind an item is looked at and left. If it is no stray one, the item ends there. -/
theorem decides_refuseStray (tokens : List Token) :
    Decides (fun _ => refuseStray) tokens
      (fun taken rest _ => taken = [] ∧ rest = tokens ∧ EndsItem tokens) (fun taken => taken = []) := by
  rcases ended_or_cons tokens with hended | ⟨t, rest, rfl, ht⟩
  · refine Decides.congr ?_ (.pure (a := fun _ => ()) ⟨rfl, rfl, ?_⟩)
    · intro d q hlike
      have hq := hlike.of_ended hended
      have hnone : strayToken? q = none := by
        unfold strayToken?
        split
        · next t hc => exact if_pos (.inl (hq t hc))
        · rfl
      simp only [refuseStray, hnone]
      rfl
    · rintro t rest rfl hinner
      exact hinner.2 (lexeme_of_kind_symbol (eq_of_beq (hended t rfl)))
  · by_cases hk : t.kind = .symbol .newLine
    · refine Decides.congr ?_ (.pure (a := fun _ => ()) ⟨rfl, rfl, ?_⟩)
      · intro d q hlike
        have hnone : strayToken? q = none := by
          simp only [strayToken?, hlike.of_token ht]
          exact if_pos (.inr hk)
        simp only [refuseStray, hnone]
        rfl
      · rintro u others heq hinner
        obtain ⟨rfl, -⟩ := List.cons.inj heq
        exact hinner.1 (lexeme_of_kind_symbol hk)
    · refine Decides.congr ?_ (.throw (.syntactic (.unexpectedToken t.kind) t.span) rfl)
      intro d q hlike
      have hnot : ¬((t.move d).isEndOfFile = true ∨ (t.move d).kind = .symbol .newLine) := by
        rw [Token.isEndOfFile_move, Token.kind_move, ht]
        exact fun h => h.elim Bool.false_ne_true hk
      simp only [refuseStray, strayToken?, hlike.of_token ht, if_neg hnot]
      rfl

/-! ## All items -/

/-- Lexemes that some further ones make a formula of. In front of a formula there need not be
    anything, so none are needed to complete what is empty. -/
def BeginsFormula (read : List Lexeme) : Prop :=
  ∃ others f, DerivesFormula (read ++ others) f ∧ (read = [] → others = [])

theorem BeginsNext.beginsFormula {read : List Lexeme} (h : BeginsNext read) :
    BeginsFormula read := by
  obtain ⟨n, more, rfl, others, e, hd⟩ := h
  cases more with
  | nil => exact ⟨[], _, by simpa using .blank n, fun _ => rfl⟩
  | cons l more =>
    refine ⟨others, ⟨[e]⟩, ?_, by simp⟩
    have hitem := DerivesFormula.items n 0 (.last hd)
    simpa [breaks] using hitem

/-- An item in front of what begins a formula, behind which no token is stray. -/
theorem BeginsFormula.prepend {phrase read : List Lexeme} {e : Expr} (n : Nat)
    (hitem : DerivesItem phrase e) (h : BeginsFormula read)
    (hhead : ∀ l rest, read = l :: rest → ¬ l.IsInner) :
    BeginsFormula (breaks n ++ (phrase ++ read)) := by
  obtain ⟨others, f, hd, hnil⟩ := h
  refine ⟨others, ⟨e :: f.items⟩, ?_, ?_⟩
  · have hwhole := hd.prepend n hitem ?_
    · simpa only [List.append_assoc] using hwhole
    · intro l rest heq
      cases read with
      | nil =>
        rw [hnil rfl] at heq
        exact nomatch heq
      | cons l' read =>
        obtain ⟨rfl, -⟩ := List.cons.inj heq
        exact hhead l' read rfl
  · intro heq
    have hphrase : phrase = [] := by
      simp only [List.append_eq_nil_iff] at heq
      exact heq.2.1
    exact absurd hphrase hitem.ne_nil

theorem decides_allItems (tokens : List Token) :
    Decides (fun _ => allItems) tokens (fun _ _ a => ∃ es, a = fun _ => es)
      (fun taken => BeginsFormula (taken.map Token.lexeme)) := by
  rw [allItems_eq]
  refine Decides.bind (decides_nextItem tokens).with_run (fun _ h => h.beginsFormula) ?_
  rintro taken rest _ htokens ⟨⟨r, rfl⟩, hrun⟩
  have hread := (ensures_nextItem _).of_ok (hrun 0)
  cases r with
  | none => exact .pure ⟨[], rfl⟩
  | some e =>
    obtain ⟨n, taken', hup, phrase, hphrase, hitem⟩ := hread
    rw [upcoming_onTokens, upcoming_onTokens, htokens] at hup
    obtain rfl := List.append_cancel_right hup
    have htaken : (taken.map Token.lexeme).length = n + phrase.length := by
      rw [hphrase, List.length_append, breaks, List.length_replicate]
    have hshorter : rest.length < tokens.length := by
      have hpos := List.length_pos_iff.mpr hitem.ne_nil
      rw [List.length_map] at htaken
      rw [htokens, List.length_append]
      omega
    have hprepend : ∀ {more others : List Token}, rest = more ++ others → EndsItem rest ∨ more = [] →
        BeginsFormula (more.map Token.lexeme) →
          BeginsFormula ((taken ++ more).map Token.lexeme) := by
      intro more others hsplit hends hbegins
      rw [List.map_append, hphrase, List.append_assoc]
      refine hbegins.prepend n hitem ?_
      intro l ls heq
      obtain ⟨t, more, rfl, rfl, -⟩ := List.map_eq_cons_iff.mp heq
      rcases hends with hends | hnil
      · exact hends t (more ++ others) hsplit
      · cases hnil
    refine Decides.bind (decides_refuseStray rest) ?_ ?_
    · rintro _ rfl
      exact hprepend (List.nil_append rest).symm (.inr rfl) ⟨[], _, .blank 0, fun _ => rfl⟩
    rintro _ others _ - ⟨rfl, rfl, hends⟩
    refine Decides.bind ((decides_allItems others).mono (fun _ _ _ _ h => h) ?_) (fun _ h => h) ?_
    · intro more rest' hsplit hbegins
      exact hprepend hsplit (.inl hends) hbegins
    · rintro _ _ _ - ⟨es, rfl⟩
      exact .pure ⟨e :: es, rfl⟩
termination_by tokens.length

/-- All items are read alike in every place. -/
theorem exists_reads_allItems (tokens : List Token) :
    ∃ taken rest r, tokens = taken ++ rest ∧ Reads (fun _ => allItems) taken rest r ∧
      ∀ d, r d = (r 0).mapError (ParseError.move d) := by
  obtain ⟨taken, rest, htokens, ⟨_, hread, es, rfl⟩ | ⟨e, hread, -⟩⟩ := decides_allItems tokens
  · exact ⟨taken, rest, _, htokens, hread, fun _ => rfl⟩
  · refine ⟨taken, rest, _, htokens, hread, ?_⟩
    intro d
    rw [ParseError.move_zero]
    rfl

end Parser

end FormulaSyntax
