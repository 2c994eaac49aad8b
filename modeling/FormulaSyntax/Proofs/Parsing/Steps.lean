import FormulaSyntax.Formula.Expression
import FormulaSyntax.Proofs.Parsing.Ensures
import FormulaSyntax.Proofs.Parsing.Stacks

/-!
# What a step of an expression does to the invariant

`Stands read held place` is the invariant of `Stacks` at the two places where the reader of an
expression can stand. One step from there, on **any** feed, does one of four things:

* it takes one token and stands again, with that token's lexeme read;
* it ends an expression, and all that was read derives it;
* it finds that there is no expression, and nothing was read;
* it fails, and not by a fault.

`run` repeats steps, so by induction an expression that it returns derives from the tokens taken.
-/

set_option autoImplicit false

namespace FormulaSyntax

namespace Parser

/-- The invariant where the reader of an expression stands. -/
def Stands (read : List Lexeme) (held : Stacks) : Place → Prop
  | .operand => Opens read held
  | .operator => Holds .unit read held

/-- What comes of a step that is taken with `read` read. -/
def Stepped (read : List Lexeme) (p : Parser) : Outcome → Parser → Prop
  | .next held place, q =>
    ∃ t, p.upcoming = t :: q.upcoming ∧ Stands (read ++ [t.lexeme]) held place
  | .done (some e), q => q = p ∧ Derives .equality read e
  | .done none, q => q = p ∧ read = []

/-! ## Operands -/

/-- A literal or a name is a unit of its own, and takes one token. -/
def ReadsUnit (p : Parser) (e : Expr) (q : Parser) : Prop :=
  ∃ t, p.upcoming = t :: q.upcoming ∧ Derives .unit [t.lexeme] e

/-- The kind of the token was seen before it is taken, so its payload is the one that is
    needed. -/
theorem ensures_takeLiteral {p : Parser} {t : Token} {value : Literal} (hc : p.current = some t)
    (hl : literalOf t = .ok value) (hd : Derives .unit [t.lexeme] (.literal value)) :
    Ensures takeLiteral p (ReadsUnit p) Faultless := by
  refine (ensures_bump hc).bind ?_
  rintro taken q ⟨rfl, -, hup⟩
  refine Ensures.bind (m := fun v q' => v = value ∧ q' = q) (.orFault hl ⟨rfl, rfl⟩) ?_
  rintro v q' ⟨rfl, rfl⟩
  exact .pure ⟨taken, hup, hd⟩

/-- A name is turned down for the token behind it, or nothing happens. -/
theorem ensures_refuseReserved (name : Token) (p : Parser) :
    Ensures (refuseReserved name) p (fun _ q => q = p) Faultless := by
  cases hr : reservedForm? name p with
  | none => simp only [Ensures, refuseReserved, hr]
  | some error =>
    simp only [Ensures, refuseReserved, hr]
    unfold reservedForm? at hr
    split at hr
    · obtain ⟨what, -, rfl⟩ := Option.map_eq_some_iff.mp hr
      rfl
    · cases hr

theorem ensures_takeName {p : Parser} {t : Token} {text : String} (hc : p.current = some t)
    (hl : t.lexeme = .name text) : Ensures takeName p (ReadsUnit p) Faultless := by
  refine (ensures_bump hc).bind ?_
  rintro taken q ⟨rfl, -, hup⟩
  refine (ensures_refuseReserved taken q).bind ?_
  rintro _ q' rfl
  have htext : textOf taken = .ok text := by simp only [textOf, hl]
  refine Ensures.bind (m := fun s q => s = text ∧ q = q') (.orFault htext ⟨rfl, rfl⟩) ?_
  rintro s q ⟨rfl, rfl⟩
  exact .pure ⟨taken, hup, hl ▸ .name s⟩

/-- What looking for a primary comes to. -/
def PrimaryRead (p : Parser) : Option Expr → Parser → Prop
  | some e, q => ReadsUnit p e q
  | none, q => q = p

theorem ensures_primary (p : Parser) : Ensures primary p (PrimaryRead p) Faultless := by
  cases hc : p.current with
  | none => simp only [Ensures, primary, hc, PrimaryRead]
  | some t =>
    have hprimary : Ensures (primaryAt t) p (PrimaryRead p) Faultless := by
      cases hl : t.lexeme with
      | symbol s =>
        simp only [primaryAt, Token.kind, Lexeme.kind, hl]
        cases reservedOperand? s with
        | some what => exact .throw rfl
        | none => exact .pure rfl
      | name text =>
        simp only [primaryAt, Token.kind, Lexeme.kind, hl]
        exact .map_some (ensures_takeName hc hl)
      | number value =>
        simp only [primaryAt, Token.kind, Lexeme.kind, hl]
        have hlit : literalOf t = .ok (.number value) := by simp only [literalOf, hl]
        exact .map_some (ensures_takeLiteral hc hlit (hl ▸ .number value))
      | string text =>
        simp only [primaryAt, Token.kind, Lexeme.kind, hl]
        have hlit : literalOf t = .ok (.text text) := by simp only [literalOf, hl]
        exact .map_some (ensures_takeLiteral hc hlit (hl ▸ .string text))
      | truth value =>
        simp only [primaryAt, Token.kind, Lexeme.kind, hl]
        have hlit : literalOf t = .ok (.truth value) := by simp only [literalOf, hl]
        exact .map_some (ensures_takeLiteral hc hlit (hl ▸ .truth value))
    simpa only [Ensures, primary, hc] using hprimary

theorem missingOperand_faultless (top : Pending) (p : Parser) : Faultless top.missingOperand p := by
  cases top <;> rfl

theorem ensures_takePrimary {read : List Lexeme} {held : Stacks} (h : Opens read held)
    (p : Parser) : Ensures (takePrimary held) p (Stepped read p) Faultless := by
  refine (ensures_primary p).bind ?_
  intro r q hr
  cases r with
  | some e =>
    obtain ⟨t, hup, hd⟩ := hr
    exact .pure ⟨t, hup, h.pushOperand hd⟩
  | none =>
    obtain rfl : q = p := hr
    -- Without a primary the expression is absent, but only if nothing was read of it.
    cases hpending : held.pending with
    | nil =>
      refine .pure ⟨rfl, ?_⟩
      cases h with
      | intro ha => exact ha.read_eq_nil_iff.mpr hpending
    | cons top rest => exact .throw (missingOperand_faultless top q)

/-- A token that opens something is a prefix operator or a parenthesis. -/
theorem opening?_eq_some {kind : TokenKind} {opened : Span → Pending}
    (h : opening? kind = some opened) :
    (∃ op : PrefixOp, kind = .symbol op.symbol ∧ opened = .prefixed op) ∨
      (kind = .symbol .leftParen ∧ opened = .group) := by
  unfold opening? at h
  split at h <;> simp only [Option.some.injEq, reduceCtorEq] at h
  · exact Or.inl ⟨.not, rfl, h.symm⟩
  · exact Or.inl ⟨.negate, rfl, h.symm⟩
  · exact Or.inr ⟨rfl, h.symm⟩

theorem ensures_operandStep {read : List Lexeme} {held : Stacks} (h : Opens read held)
    (p : Parser) : Ensures (operandStep held) p (Stepped read p) Faultless := by
  cases ho : p.currentKind?.bind opening? with
  | none => simpa only [Ensures, operandStep, ho] using ensures_takePrimary h p
  | some opened =>
    obtain ⟨kind, hk, hopen⟩ := Option.bind_eq_some_iff.mp ho
    obtain ⟨t, hc, rfl⟩ := current_of_kind hk
    have htake : Ensures (takeOpening held opened) p (Stepped read p) Faultless := by
      refine (ensures_bump hc).bind ?_
      rintro taken q ⟨rfl, -, hup⟩
      refine .pure ⟨taken, hup, ?_⟩
      rcases opening?_eq_some hopen with ⟨op, hkind, rfl⟩ | ⟨hkind, rfl⟩
      · rw [lexeme_of_kind_symbol hkind]
        exact h.pushPrefix op taken.span
      · rw [lexeme_of_kind_symbol hkind]
        exact h.pushGroup taken.span
    simpa only [Ensures, operandStep, ho] using htake

/-! ## Behind an operand -/

/-- An open group is on the stack if the count says so, and then there is a place to blame. -/
theorem unclosedGroup_faultless {held : Stacks} {r : Layer} {read : List Lexeme}
    (h : Holds r read held) (hopen : 0 < held.openGroups) (p : Parser) :
    Faultless (unclosedGroup held p) p := by
  cases h with
  | @intro _ operands pending _ _ top ha _ hd =>
    obtain ⟨span, hspan⟩ := exists_innermost hopen
    unfold Faultless unclosedGroup
    simp only [Stacks.innermostGroup?, hspan]
    split
    · split <;> rfl
    · rfl

/-- With nothing pending any more there is one operand left, and it is derived from all that was
    read. -/
theorem ensures_finish {read : List Lexeme} {held : Stacks} (h : Holds .unit read held)
    (hf : Folded held.pending) (p : Parser) :
    Ensures (finish held) p (Stepped read p) Faultless := by
  -- With a parenthesis open there is no way on but its error.
  by_cases hopen : 0 < held.openGroups
  · refine Ensures.bind (m := fun _ _ => False) ?_ (fun _ _ hfalse => hfalse.elim)
    simpa only [Ensures, refuseOpenGroup, if_pos hopen] using unclosedGroup_faultless h hopen p
  · refine Ensures.bind (m := fun _ q => q = p) ?_ ?_
    · simp only [Ensures, refuseOpenGroup, if_neg hopen]
    · rintro _ q rfl
      obtain ⟨e, he, hd⟩ := h.result hf (Nat.eq_zero_of_not_pos hopen)
      refine Ensures.bind (m := fun e' q' => e' = e ∧ q' = q) (.orFault he ⟨rfl, rfl⟩) ?_
      rintro e' q' ⟨rfl, rfl⟩
      exact .pure ⟨rfl, hd⟩

theorem ensures_closeGroup {read : List Lexeme} {held : Stacks} (h : Holds .unit read held)
    (hf : Folded held.pending) {p : Parser} {t : Token} (hc : p.current = some t)
    (hcloses : closes held t.kind = true) :
    Ensures (closeGroup held) p (Stepped read p) Faultless := by
  have hopen : 0 < held.openGroups ∧ t.kind = .symbol .rightParen := by
    simpa only [closes, Bool.and_eq_true, decide_eq_true_eq, beq_iff_eq] using hcloses
  obtain ⟨closed, hclosed, hholds⟩ := h.closeGroup hf hopen.1
  refine (ensures_shift hc).bind ?_
  rintro _ q ⟨-, -, hup⟩
  refine Ensures.bind (m := fun s q' => s = closed ∧ q' = q) (.orFault hclosed ⟨rfl, rfl⟩) ?_
  rintro s q' ⟨rfl, rfl⟩
  refine .pure ⟨t, hup, ?_⟩
  rw [lexeme_of_kind_symbol hopen.2]
  exact hholds

theorem ofKind?_eq_some {kind : TokenKind} {op : BinaryOp} (h : BinaryOp.ofKind? kind = some op) :
    kind = .symbol op.symbol := by
  unfold BinaryOp.ofKind? at h
  split at h
  · rw [BinaryOp.ofSymbol?_eq_some_iff.mp h]
  · exact nomatch h

theorem ensures_takeOperator {read : List Lexeme} {held : Stacks} (h : Holds .unit read held)
    (hf : Folded held.pending) {p : Parser} {t : Token} {op : BinaryOp} (hc : p.current = some t)
    (hop : BinaryOp.ofKind? t.kind = some op) :
    Ensures (takeOperator held) p (Stepped read p) Faultless := by
  have hofKind : BinaryOp.ofKind t.kind = .ok op := by simp only [BinaryOp.ofKind, hop]
  obtain ⟨reduced, hreduced, -, hholds⟩ := h.reduce hf (some op)
  refine (ensures_bump hc).bind ?_
  rintro taken q ⟨rfl, -, hup⟩
  refine Ensures.bind (m := fun o q' => o = op ∧ q' = q) (.orFault hofKind ⟨rfl, rfl⟩) ?_
  rintro o q' ⟨rfl, rfl⟩
  refine Ensures.bind (m := fun s q => s = reduced ∧ q = q') (.orFault hreduced ⟨rfl, rfl⟩) ?_
  rintro s q ⟨rfl, rfl⟩
  refine .pure ⟨taken, hup, ?_⟩
  rw [lexeme_of_kind_symbol (ofKind?_eq_some hop)]
  exact hholds.pushBinary taken.span

/-- The choice behind an operand, taken apart once. In parentheses it comes before operators. -/
theorem behindOperand_of_closes {held : Stacks} {p : Parser} {kind : TokenKind}
    (hk : p.currentKind? = some kind) (h : closes held kind = true) :
    behindOperand held p = closeGroup held p := by
  simp only [behindOperand, hk, if_pos h]

theorem behindOperand_of_operator {held : Stacks} {p : Parser} {kind : TokenKind} {op : BinaryOp}
    (hk : p.currentKind? = some kind) (h : closes held kind = false)
    (hop : BinaryOp.ofKind? kind = some op) : behindOperand held p = takeOperator held p := by
  simp only [behindOperand, hk, h, hop, Bool.false_eq_true, if_false, Option.isSome_some, if_true]

theorem behindOperand_of_other {held : Stacks} {p : Parser} {kind : TokenKind}
    (hk : p.currentKind? = some kind) (h : closes held kind = false)
    (hop : BinaryOp.ofKind? kind = none) : behindOperand held p = finish held p := by
  simp only [behindOperand, hk, h, hop, Bool.false_eq_true, if_false, Option.isSome_none]

theorem behindOperand_of_none {held : Stacks} {p : Parser} (hk : p.currentKind? = none) :
    behindOperand held p = finish held p := by
  simp only [behindOperand, hk]

theorem ensures_behindOperand {read : List Lexeme} {held : Stacks} (h : Holds .unit read held)
    (hf : Folded held.pending) (p : Parser) :
    Ensures (behindOperand held) p (Stepped read p) Faultless := by
  cases hk : p.currentKind? with
  | none =>
    rw [Ensures, behindOperand_of_none hk]
    exact ensures_finish h hf p
  | some kind =>
    obtain ⟨t, hc, rfl⟩ := current_of_kind hk
    cases hcloses : closes held t.kind with
    | true =>
      rw [Ensures, behindOperand_of_closes hk hcloses]
      exact ensures_closeGroup h hf hc hcloses
    | false =>
      cases hop : BinaryOp.ofKind? t.kind with
      | some op =>
        rw [Ensures, behindOperand_of_operator hk hcloses hop]
        exact ensures_takeOperator h hf hc hop
      | none =>
        rw [Ensures, behindOperand_of_other hk hcloses hop]
        exact ensures_finish h hf p

theorem ensures_operatorStep {read : List Lexeme} {held : Stacks} (h : Holds .unit read held)
    (p : Parser) : Ensures (operatorStep held) p (Stepped read p) Faultless := by
  obtain ⟨folded, hfolded, hholds, hf⟩ := h.foldPrefixes
  refine Ensures.bind (m := fun s q => s = folded ∧ q = p) (.orFault hfolded ⟨rfl, rfl⟩) ?_
  rintro s q ⟨rfl, rfl⟩
  exact ensures_behindOperand hholds hf q

/-- **A step keeps the invariant**, and cannot fail by a fault. -/
theorem ensures_step {read : List Lexeme} {held : Stacks} {place : Place}
    (h : Stands read held place) (p : Parser) :
    Ensures (step held place) p (Stepped read p) Faultless := by
  cases place with
  | operand => exact ensures_operandStep h p
  | operator => exact ensures_operatorStep h p

/-! ## Whole expressions -/

/-- Repeated steps, one step at a time. The proofs about them need nothing else. -/
theorem run_of_next {held held' : Stacks} {place place' : Place} {p q : Parser}
    (h : step held place p = .ok (.next held' place') q) :
    run held place p = run held' place' q := by
  rw [run]
  split <;> simp_all

theorem run_of_done {held : Stacks} {place : Place} {p q : Parser} {result : Option Expr}
    (h : step held place p = .ok (.done result) q) : run held place p = .ok result q := by
  rw [run]
  split <;> simp_all

theorem run_of_error {held : Stacks} {place : Place} {p q : Parser} {e : ParseError}
    (h : step held place p = .error e q) : run held place p = .error e q := by
  rw [run]
  split <;> simp_all

/-- What reading an expression comes to, with `read` read before. -/
def ExpressionRead (read : List Lexeme) (p : Parser) : Option Expr → Parser → Prop
  | some e, q =>
    ∃ taken, p.upcoming = taken ++ q.upcoming ∧
      Derives .equality (read ++ taken.map Token.lexeme) e
  | none, q => q = p ∧ read = []

/-- **Repeated steps read a phrase of the grammar.** The induction is on the tokens upcoming,
like the recursion of `run`. -/
theorem ensures_run {read : List Lexeme} {held : Stacks} {place : Place} {p : Parser}
    (h : Stands read held place) :
    Ensures (run held place) p (ExpressionRead read p) Faultless := by
  have hstep := ensures_step h p
  cases hs : step held place p with
  | error e q =>
    have hfail := hstep.of_error hs
    simpa only [Ensures, run_of_error hs] using hfail
  | ok o q =>
    have hstepped := hstep.of_ok hs
    cases o with
    | done result =>
      simp only [Ensures, run_of_done hs]
      cases result with
      | some e =>
        obtain ⟨rfl, hd⟩ := hstepped
        exact ⟨[], rfl, by simpa only [List.map_nil, List.append_nil] using hd⟩
      | none => exact hstepped
    | next held' place' =>
      obtain ⟨t, hup, hstands⟩ := hstepped
      -- What is read from here on begins with the token that the step took.
      have hrest : Ensures (run held' place') q (ExpressionRead read p) Faultless := by
        refine (ensures_run (p := q) hstands).mono ?_
        intro r q' hr
        cases r with
        | some e =>
          obtain ⟨taken, htaken, hd⟩ := hr
          refine ⟨t :: taken, ?_, ?_⟩
          · rw [hup, htaken, List.cons_append]
          · simpa only [List.map_cons, List.append_assoc, List.cons_append, List.nil_append]
              using hd
        | none => exact absurd hr.2 (by simp)
      simpa only [Ensures, run_of_next hs] using hrest
termination_by p.upcoming.length
decreasing_by
  rw [hup]
  exact Nat.lt_succ_self _

theorem ensures_expression (p : Parser) :
    Ensures expression p (ExpressionRead [] p) Faultless := ensures_run Opens.empty

end Parser

end FormulaSyntax
