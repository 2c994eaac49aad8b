import FormulaSyntax.Proofs.Parsing.Completion
import FormulaSyntax.Proofs.Parsing.Phrases
import FormulaSyntax.Proofs.Parsing.Reading

/-!
# What the steps of an expression read

An expression is read step by step, and every step decides on the tokens in front of it: a step
that goes on takes one token, one that ends the expression takes none, and one that fails has
taken nothing or just a name (`decides_step`). The token behind is looked at and left.

The stacks hold places and are moved along with the tokens. They are at odds with no text in front
of which they stand: of what they hold and what a failing step has taken, **the lexemes read so
far begin a phrase** (`decides_run`). A name in front of an expression is taken in any case. Items
need to know that, as they look at the token behind the name as well.
-/

set_option autoImplicit false

namespace FormulaSyntax

namespace Parser

/-- Either nothing more is in view, or the token in front is one that the decision may depend
    on. -/
theorem ended_or_cons (tokens : List Token) :
    Ended tokens.head? ∨ ∃ t rest, tokens = t :: rest ∧ t.isEndOfFile = false := by
  cases tokens with
  | nil => exact .inl ended_none
  | cons t rest =>
    cases ht : t.isEndOfFile with
    | true => exact .inl (ended_some ht)
    | false => exact .inr ⟨t, rest, rfl, ht⟩

theorem kind_of_ended {seen : Option Token} (h : Ended seen) :
    seen.map Token.kind = none ∨ seen.map Token.kind = some .endOfFile := by
  cases seen with
  | none => exact .inl rfl
  | some t => exact .inr (congrArg some (eq_of_beq (h t rfl)))

theorem currentKind?_of_alike {d : Nat} {t : Token} {rest : List Token} {q : Parser}
    (h : Alike d (t :: rest).head? q.current) (ht : t.isEndOfFile = false) :
    q.currentKind? = some t.kind := by
  rw [currentKind?, h.of_token ht]
  rfl

/-! ## Operands -/

/-- Nothing was taken, or just a name. -/
def Refused (taken : List Token) : Prop :=
  taken = [] ∨ ∃ t text, taken = [t] ∧ t.lexeme = .name text

/-- A name in front is taken. -/
def TakesName (tokens taken : List Token) : Prop :=
  ∀ t rest text, tokens = t :: rest → t.lexeme = .name text → taken ≠ []

theorem takesName_cons (tokens taken : List Token) (t : Token) : TakesName tokens (t :: taken) :=
  fun _ _ _ _ _ => List.cons_ne_nil t taken

theorem isEndOfFile_of_lexeme {t : Token} (h : t.lexeme ≠ .symbol .endOfFile) :
    t.isEndOfFile = false := by
  rw [Bool.eq_false_iff]
  intro hend
  exact h (lexeme_of_kind_symbol (eq_of_beq hend))

theorem reads_takeLiteral {t : Token} {value : Literal} (hl : literalOf t = .ok value)
    (rest : List Token) :
    Reads (fun _ => takeLiteral) [t] rest (fun _ => .ok (.literal value)) := by
  have ht : t.isEndOfFile = false := by
    apply isEndOfFile_of_lexeme
    intro hlex
    simp [literalOf, hlex] at hl
  have hvalue : Reads (fun d => orFault (literalOf (t.move d)) >>= fun v => pure (Expr.literal v))
      [] rest (fun _ => .ok (.literal value)) := by
    apply Reads.of_eq
    intro d q
    have hmove : literalOf (t.move d) = literalOf t := rfl
    rw [hmove, hl]
    rfl
  exact (Reads.bump ht).bind hvalue

/-- Whether a name makes up a reserved form depends on the token behind it, which is looked at and
    left. A gap or an end there makes up none. -/
theorem decides_refuseReserved (name : Token) (rest : List Token) :
    Decides (fun d => refuseReserved (name.move d)) rest
      (fun taken _ _ => taken = []) (fun taken => taken = []) := by
  rcases ended_or_cons rest with hended | ⟨u, others, rfl, hu⟩
  · refine Decides.congr (y := fun _ => pure ()) ?_ (.pure rfl)
    intro d q hlike
    have hnone : reservedForm? (name.move d) q = none := by
      have hq := hlike.of_ended hended
      unfold reservedForm?
      split
      · next t hc =>
        have hk : t.kind = .endOfFile := eq_of_beq (hq t hc)
        rw [hk]
        rfl
      · rfl
    simp only [refuseReserved, hnone]
    rfl
  · have hform : ∀ {d : Nat} {q : Parser}, Alike d (u :: others).head? q.current →
        reservedForm? (name.move d) q = (reservedBehindName? u.kind).map fun what =>
          .syntactic (.unsupported what) ((name.span.merge u.span).move d) := by
      intro d q hlike
      simp only [reservedForm?, hlike.of_token hu, Token.kind_move, Token.span_move,
        Span.move_merge]
    cases hr : reservedBehindName? u.kind with
    | none =>
      refine Decides.congr (y := fun _ => pure ()) ?_ (.pure rfl)
      intro d q hlike
      simp only [refuseReserved, hform hlike, hr, Option.map_none]
      rfl
    | some what =>
      refine Decides.congr ?_ (.throw (.syntactic (.unsupported what) (name.span.merge u.span)) rfl)
      intro d q hlike
      simp only [refuseReserved, hform hlike, hr, Option.map_some]
      rfl

/-- The name is taken in any case, and before it is found out whether it makes up a reserved
    form. -/
theorem decides_takeName {t : Token} {text : String} (hl : t.lexeme = .name text)
    (rest : List Token) :
    Decides (fun _ => takeName) (t :: rest) (fun taken _ a => taken = [t] ∧ a = fun _ => .ident ⟨text⟩)
      (fun taken => taken = [t]) := by
  have ht : t.isEndOfFile = false := isEndOfFile_of_lexeme (by simp [hl])
  refine .bump_bind ht ?_
  refine Decides.bind (decides_refuseReserved t rest) (fun taken h => by rw [h]) ?_
  rintro _ others _ - rfl
  have htext : ∀ d, textOf (t.move d) = .ok text := by
    intro d
    simp only [textOf, Token.lexeme_move, hl]
  simp only [htext]
  exact .pure ⟨rfl, rfl⟩

theorem Decides.map_some {α : Type} {x : Nat → ParseM α} {tokens : List Token}
    {good : List Token → List Token → (Nat → Option α) → Prop} {bad : List Token → Prop}
    (h : Decides x tokens (fun taken rest a => good taken rest fun d => some (a d)) bad) :
    Decides (fun d => some <$> x d) tokens good bad := by
  simp only [map_eq_pure_bind]
  refine Decides.bind h (fun _ h => h) ?_
  intro taken rest a _ ha
  refine .pure ?_
  rwa [List.append_nil]

/-- A primary that is there is one token. -/
def PrimaryDecided (tokens taken : List Token) (a : Nat → Option Expr) : Prop :=
  (taken = [] ∧ TakesName tokens taken ∧ a = fun _ => none) ∨
    ∃ t e, taken = [t] ∧ a = fun _ => some e

theorem takesName_nil {tokens : List Token}
    (h : ∀ t rest, tokens = t :: rest → ∃ s, t.lexeme = .symbol s) : TakesName tokens [] := by
  intro t rest text htokens hl
  obtain ⟨s, hs⟩ := h t rest htokens
  rw [hs] at hl
  cases hl

/-- A reserved symbol is refused as it stands, a name only when it has been taken. Literals are
    taken without fail. -/
theorem decides_primaryAt (t : Token) (rest : List Token) :
    Decides (fun d => primaryAt (t.move d)) (t :: rest)
      (fun taken _ a => PrimaryDecided (t :: rest) taken a)
      (fun taken => TakesName (t :: rest) taken ∧ Refused taken) := by
  have hliteral : ∀ {value : Literal}, literalOf t = .ok value →
      Decides (fun _ => some <$> takeLiteral) (t :: rest)
        (fun taken _ a => PrimaryDecided (t :: rest) taken a)
        (fun taken => TakesName (t :: rest) taken ∧ Refused taken) := by
    intro value hl
    apply Decides.map_some
    exact ⟨[t], rest, rfl, .inl ⟨_, reads_takeLiteral hl rest, .inr ⟨t, _, rfl, rfl⟩⟩⟩
  obtain ⟨l, span⟩ := t
  cases l with
  | symbol s =>
    have hsymbol : TakesName (⟨.symbol s, span⟩ :: rest) [] := by
      apply takesName_nil
      rintro u others heq
      obtain ⟨rfl, -⟩ := List.cons.inj heq
      exact ⟨s, rfl⟩
    simp only [primaryAt, Token.kind, Lexeme.kind, Token.move]
    cases reservedOperand? s with
    | some what => exact .throw (.syntactic (.unsupported what) span) ⟨hsymbol, .inl rfl⟩
    | none => exact .pure (.inl ⟨rfl, hsymbol, rfl⟩)
  | name text =>
    apply Decides.map_some
    refine (decides_takeName rfl rest).mono ?_ ?_
    · rintro _ _ _ - ⟨rfl, rfl⟩
      exact .inr ⟨_, _, rfl, rfl⟩
    · rintro _ _ - rfl
      exact ⟨takesName_cons _ _ _, .inr ⟨_, text, rfl, rfl⟩⟩
  | number value => exact hliteral rfl
  | string text => exact hliteral rfl
  | truth value => exact hliteral rfl

theorem decides_primary (tokens : List Token) :
    Decides (fun _ => primary) tokens (fun taken _ a => PrimaryDecided tokens taken a)
      (fun taken => TakesName tokens taken ∧ Refused taken) := by
  rcases ended_or_cons tokens with hended | ⟨t, rest, rfl, ht⟩
  · have hnone : TakesName tokens [] := by
      apply takesName_nil
      rintro t others rfl
      exact ⟨_, lexeme_of_kind_symbol (eq_of_beq (hended t rfl))⟩
    refine Decides.congr ?_ (.pure (.inl ⟨rfl, hnone, rfl⟩))
    intro d q hlike
    have hq := hlike.of_ended hended
    unfold primary
    split
    · next t hc =>
      have hk : t.kind = .endOfFile := eq_of_beq (hq t hc)
      rw [primaryAt, hk]
      rfl
    · rfl
  · refine Decides.congr ?_ (decides_primaryAt t rest)
    intro d q hlike
    simp only [primary, hlike.of_token ht]

/-! ## Steps -/

/-- A step that goes on takes one token, and one that ends the expression takes none. -/
def StepDecided (taken : List Token) (o : Nat → Outcome) : Prop :=
  (∃ (t : Token) (held : Stacks) (place : Place), taken = [t] ∧
      o = fun d => .next (held.move d) place) ∨
    (taken = [] ∧ ∃ result, o = fun _ => .done result)

/-- A unit that is missing behind pending entries is an error that moves with these entries, since
    they hold the places. -/
theorem decides_takePrimary (held : Stacks) (tokens : List Token) :
    Decides (fun d => takePrimary (held.move d)) tokens
      (fun taken _ o => TakesName tokens taken ∧ StepDecided taken o)
      (fun taken => TakesName tokens taken ∧ Refused taken) := by
  refine Decides.bind (decides_primary tokens) (fun _ h => h) ?_
  rintro _ rest _ - (⟨rfl, hname, rfl⟩ | ⟨t, e, rfl, rfl⟩)
  · obtain ⟨operands, pending, openGroups⟩ := held
    cases pending with
    | nil => exact .pure ⟨hname, .inr ⟨rfl, none, rfl⟩⟩
    | cons top pending =>
      simp only [Stacks.move, List.map_cons, Pending.missingOperand_move]
      exact .throw top.missingOperand ⟨hname, .inl rfl⟩
  · exact .pure ⟨takesName_cons _ _ _, .inl ⟨t, held.pushOperand e, .operator, rfl, rfl⟩⟩

/-- What a token opens is the same further on, moved. -/
theorem opened_move {kind : TokenKind} {opened : Span → Pending} (h : opening? kind = some opened)
    (d : Nat) (span : Span) : opened (span.move d) = (opened span).move d := by
  rcases opening?_eq_some h with ⟨op, -, rfl⟩ | ⟨-, rfl⟩
  · rfl
  · rfl

theorem opening?_of_ended {seen : Option Token} (h : Ended seen) :
    (seen.map Token.kind).bind opening? = none := by
  rcases kind_of_ended h with hk | hk <;> rw [hk] <;> rfl

theorem decides_operandStep (held : Stacks) (tokens : List Token) :
    Decides (fun d => operandStep (held.move d)) tokens
      (fun taken _ o => TakesName tokens taken ∧ StepDecided taken o)
      (fun taken => TakesName tokens taken ∧ Refused taken) := by
  have hprimary : (∀ d (q : Parser), Alike d tokens.head? q.current →
      q.currentKind?.bind opening? = none) →
      Decides (fun d => operandStep (held.move d)) tokens
        (fun taken _ o => TakesName tokens taken ∧ StepDecided taken o)
        (fun taken => TakesName tokens taken ∧ Refused taken) := by
    intro hnone
    refine Decides.congr ?_ (decides_takePrimary held tokens)
    intro d q hlike
    simp only [operandStep, hnone d q hlike]
  rcases ended_or_cons tokens with hended | ⟨t, rest, rfl, ht⟩
  · apply hprimary
    intro d q hlike
    exact opening?_of_ended (hlike.of_ended hended)
  · cases ho : opening? t.kind with
    | none =>
      apply hprimary
      intro d q hlike
      rw [currentKind?_of_alike hlike ht]
      exact ho
    | some opened =>
      have htake : Decides (fun d => takeOpening (held.move d) opened) (t :: rest)
          (fun taken _ o => TakesName (t :: rest) taken ∧ StepDecided taken o)
          (fun taken => TakesName (t :: rest) taken ∧ Refused taken) := by
        refine .bump_bind ht ?_
        simp only [Token.span_move, opened_move ho, Stacks.push_move]
        exact .pure ⟨takesName_cons _ _ _, .inl ⟨t, held.push (opened t.span), .operand, rfl, rfl⟩⟩
      refine Decides.congr ?_ htake
      intro d q hlike
      have hopen : q.currentKind?.bind opening? = some opened := by
        rw [currentKind?_of_alike hlike ht]
        exact ho
      simp only [operandStep, hopen]

/-! ## Behind an operand -/

/-- The error for an open parenthesis covers the current token, unless that is an end. -/
theorem exists_unclosedGroup (held : Stacks) (tokens : List Token) :
    ∃ e : ParseError, ∀ (d : Nat) (q : Parser), Alike d tokens.head? q.current →
      unclosedGroup (held.move d) q = e.move d := by
  cases hg : held.innermostGroup? with
  | none =>
    refine ⟨.internal .brokenReduction, ?_⟩
    intro d q _
    simp only [unclosedGroup, Stacks.innermostGroup?_move, hg, Option.map_none]
    rfl
  | some opened =>
    rcases ended_or_cons tokens with hended | ⟨t, rest, rfl, ht⟩
    · refine ⟨.syntactic .unclosedParen opened, ?_⟩
      intro d q hlike
      have hq := hlike.of_ended hended
      simp only [unclosedGroup, Stacks.innermostGroup?_move, hg, Option.map_some]
      split
      · next u hc =>
        rw [if_pos (hq u hc)]
        rfl
      · rfl
    · refine ⟨.syntactic .unclosedParen (opened.merge t.span), ?_⟩
      intro d q hlike
      simp only [unclosedGroup, Stacks.innermostGroup?_move, hg, Option.map_some,
        hlike.of_token ht, Token.isEndOfFile_move, ht, Bool.false_eq_true, if_false,
        Token.span_move, ParseError.move, Span.move_merge]

theorem reads_closeGroup {held closed : Stacks} (hclosed : held.closeGroup = .ok closed) {t : Token}
    (ht : t.isEndOfFile = false) (rest : List Token) :
    Reads (fun d => closeGroup (held.move d)) [t] rest
      (fun d => .ok (.next (closed.move d) .operator)) := by
  have hmove : ∀ d, (held.move d).closeGroup = .ok (closed.move d) := by
    intro d
    rw [Stacks.closeGroup_move, hclosed]
    rfl
  refine Reads.bind_idle (.shift ht) ?_
  exact Reads.bind_idle (.orFault hmove) (.pure fun d => Outcome.next (closed.move d) .operator)

/-- The operator is pushed with the place of its token, so the stacks further on are the moved
    ones. -/
theorem reads_takeOperator {held reduced : Stacks} {op : BinaryOp} {t : Token}
    (hop : BinaryOp.ofKind? t.kind = some op) (hreduced : held.reduce (some op) = .ok reduced)
    (rest : List Token) :
    Reads (fun d => takeOperator (held.move d)) [t] rest
      (fun d => .ok (.next ((reduced.push (.binary op t.span)).move d) .operand)) := by
  have ht : t.isEndOfFile = false := by
    rw [Bool.eq_false_iff]
    intro hend
    rw [eq_of_beq hend] at hop
    exact nomatch hop
  have hkind : ∀ d, BinaryOp.ofKind (t.move d).kind = .ok op := by
    intro d
    simp only [BinaryOp.ofKind, Token.kind_move, hop]
  have hmove : ∀ d, (held.move d).reduce (some op) = .ok (reduced.move d) := by
    intro d
    rw [Stacks.reduce_move, hreduced]
    rfl
  refine Reads.bind_idle (.bump ht) ?_
  refine Reads.bind_idle (.orFault hkind) ?_
  refine Reads.bind_idle (.orFault hmove) ?_
  simp only [← Stacks.push_move]
  exact .pure fun d => Outcome.next ((reduced.move d).push (.binary op (t.span.move d))) .operand

theorem decides_finish {held : Stacks}
    (hresult : held.openGroups = 0 → ∃ e, held.result = .ok e) (tokens : List Token) :
    Decides (fun d => finish (held.move d)) tokens
      (fun taken _ o => StepDecided taken o) (fun taken => taken = []) := by
  by_cases hopen : 0 < held.openGroups
  · obtain ⟨error, herror⟩ := exists_unclosedGroup held tokens
    refine Decides.congr ?_ (.throw error rfl)
    intro d q hlike
    apply bind_of_error
    simp only [refuseOpenGroup, Stacks.openGroups_move, if_pos hopen, herror d q hlike]
  · obtain ⟨e, he⟩ := hresult (Nat.eq_zero_of_not_pos hopen)
    have hread : Reads (fun d => finish (held.move d)) [] tokens
        (fun _ => .ok (.done (some e))) := by
      apply Reads.of_eq
      intro d q
      have hnone : refuseOpenGroup (held.move d) q = .ok () q := if_neg hopen
      rw [finish, bind_of_ok hnone, Stacks.result_move, he]
      rfl
    exact .of_reads hread (.inr ⟨rfl, some e, rfl⟩)

/-- A group is closed, an operator is taken, or the expression is finished. With no fault possible
    in what the stacks hold, the token in front alone decides which. -/
theorem decides_behindOperand {read : List Lexeme} {held : Stacks} (h : Holds .unit read held)
    (hf : Folded held.pending) (tokens : List Token) :
    Decides (fun d => behindOperand (held.move d)) tokens
      (fun taken _ o => StepDecided taken o) (fun taken => taken = []) := by
  have hfinish : Decides (fun d => finish (held.move d)) tokens
      (fun taken _ o => StepDecided taken o) (fun taken => taken = []) := by
    refine decides_finish ?_ tokens
    intro hclosed
    obtain ⟨e, he, -⟩ := h.result hf hclosed
    exact ⟨e, he⟩
  rcases ended_or_cons tokens with hended | ⟨t, rest, rfl, ht⟩
  · refine Decides.congr ?_ hfinish
    intro d q hlike
    rcases kind_of_ended (hlike.of_ended hended) with hk | hk
    · exact behindOperand_of_none hk
    · exact behindOperand_of_other hk (Bool.and_false _) rfl
  · cases hcloses : closes held t.kind with
    | true =>
      have hopen : 0 < held.openGroups := by
        rw [closes, Bool.and_eq_true, decide_eq_true_eq] at hcloses
        exact hcloses.1
      obtain ⟨closed, hclosed, -⟩ := h.closeGroup hf hopen
      refine Decides.congr ?_ (.of_reads (reads_closeGroup hclosed ht rest)
        (.inl ⟨t, closed, .operator, rfl, rfl⟩))
      intro d q hlike
      exact behindOperand_of_closes (currentKind?_of_alike hlike ht) hcloses
    | false =>
      cases hop : BinaryOp.ofKind? t.kind with
      | some op =>
        obtain ⟨reduced, hreduced, -, -⟩ := h.reduce hf (some op)
        refine Decides.congr ?_ (.of_reads (reads_takeOperator hop hreduced rest)
          (.inl ⟨t, reduced.push (.binary op t.span), .operand, rfl, rfl⟩))
        intro d q hlike
        exact behindOperand_of_operator (currentKind?_of_alike hlike ht) hcloses hop
      | none =>
        refine Decides.congr ?_ hfinish
        intro d q hlike
        exact behindOperand_of_other (currentKind?_of_alike hlike ht) hcloses hop

theorem decides_operatorStep {read : List Lexeme} {held : Stacks} (h : Holds .unit read held)
    (tokens : List Token) :
    Decides (fun d => operatorStep (held.move d)) tokens
      (fun taken _ o => StepDecided taken o) (fun taken => taken = []) := by
  obtain ⟨folded, hfolded, hholds, hf⟩ := h.foldPrefixes
  refine Decides.congr ?_ (decides_behindOperand hholds hf tokens)
  intro d q _
  apply operatorStep_of_fold
  rw [Stacks.foldPrefixes_move, hfolded]
  rfl

/-- **What a step reads**: it goes on with one token taken, or ends the expression with none; and
    if it fails, what was read up to there begins a phrase. -/
theorem decides_step {read : List Lexeme} {held : Stacks} {place : Place}
    (h : Stands read held place) (tokens : List Token) :
    Decides (fun d => step (held.move d) place) tokens
      (fun taken _ o => (place = .operand → TakesName tokens taken) ∧ StepDecided taken o)
      (fun taken => (place = .operand → TakesName tokens taken) ∧
        BeginsPhrase (read ++ taken.map Token.lexeme)) := by
  cases place with
  | operand =>
    refine (decides_operandStep held tokens).mono ?_ ?_
    · rintro taken _ o - ⟨hname, hstep⟩
      exact ⟨fun _ => hname, hstep⟩
    · rintro taken _ - ⟨hname, rfl | ⟨t, text, rfl, hl⟩⟩
      · refine ⟨fun _ => hname, ?_⟩
        rw [List.map_nil, List.append_nil]
        exact h.beginsPhrase
      · -- The name is an operand all the same; it is what follows it that was refused.
        refine ⟨fun _ => hname, ?_⟩
        rw [List.map_singleton, hl]
        exact (Opens.pushOperand h (.name text)).beginsPhrase
  | operator =>
    refine (decides_operatorStep h tokens).mono ?_ ?_
    · rintro taken _ o - hstep
      exact ⟨nofun, hstep⟩
    · rintro _ _ - rfl
      refine ⟨nofun, ?_⟩
      rw [List.map_nil, List.append_nil]
      exact h.beginsPhrase

/-! ## Whole expressions -/

/-- What follows a step. -/
def afterStep : Outcome → ParseM (Option Expr)
  | .next held place => run held place
  | .done result => pure result

/-- Repeated steps as one step and what follows it, the form in which readings are joined. -/
theorem run_eq (held : Stacks) (place : Place) : run held place = step held place >>= afterStep := by
  funext p
  cases hs : step held place p with
  | error e q => rw [run_of_error hs, bind_of_error hs]
  | ok o q =>
    rw [bind_of_ok hs]
    cases o with
    | next held' place' => exact run_of_next hs
    | done result => exact run_of_done hs

/-- **What repeated steps read**, by induction on the tokens, of which every step that goes on
    takes one. -/
theorem decides_run {read : List Lexeme} {held : Stacks} {place : Place}
    (h : Stands read held place) (tokens : List Token) :
    Decides (fun d => run (held.move d) place) tokens
      (fun taken _ a => (place = .operand → TakesName tokens taken) ∧
        ∃ result, a = (fun _ => result) ∧ (result = none → taken = [] ∧ read = []))
      (fun taken => (place = .operand → TakesName tokens taken) ∧
        BeginsPhrase (read ++ taken.map Token.lexeme)) := by
  simp only [run_eq]
  refine Decides.bind (decides_step h tokens).with_run (fun _ h => h) ?_
  rintro taken rest o htokens ⟨⟨hname, hstep⟩, hrun⟩
  have hstepped := (ensures_step h _).of_ok (Stacks.move_zero held ▸ hrun 0)
  rcases hstep with ⟨t, held', place', rfl, rfl⟩ | ⟨rfl, result, rfl⟩
  · obtain ⟨u, hup, hstands⟩ := hstepped
    rw [upcoming_onTokens, upcoming_onTokens, htokens] at hup
    obtain ⟨rfl, -⟩ := List.cons.inj hup
    rw [Stacks.move_zero] at hstands
    refine (decides_run hstands rest).mono ?_ ?_
    · rintro more rest' _ - ⟨-, result, rfl, hnone⟩
      refine ⟨fun _ => nofun, result, rfl, ?_⟩
      intro hresult
      exact absurd (hnone hresult).2 (by simp)
    · rintro more rest' - ⟨-, hbegins⟩
      refine ⟨fun _ => nofun, ?_⟩
      simpa only [List.append_assoc, List.map_append, List.map_cons, List.map_nil] using hbegins
  · refine .pure ⟨hname, result, rfl, ?_⟩
    rintro rfl
    exact ⟨rfl, hstepped.2⟩
termination_by tokens.length
decreasing_by
  rw [htokens]
  simp

theorem decides_expression (tokens : List Token) :
    Decides (fun _ => expression) tokens
      (fun taken _ a => TakesName tokens taken ∧
        ∃ result, a = (fun _ => result) ∧ (result = none → taken = []))
      (fun taken => TakesName tokens taken ∧ BeginsPhrase (taken.map Token.lexeme)) := by
  have hstands : Stands [] Stacks.empty .operand := Opens.empty
  refine (decides_run hstands tokens).mono ?_ ?_
  · rintro taken rest a - ⟨hname, result, rfl, hnone⟩
    exact ⟨hname rfl, result, rfl, fun hresult => (hnone hresult).1⟩
  · rintro taken rest - ⟨hname, hbegins⟩
    exact ⟨hname rfl, hbegins⟩

end Parser

end FormulaSyntax
