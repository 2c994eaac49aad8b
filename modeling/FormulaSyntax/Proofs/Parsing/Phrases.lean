import FormulaSyntax.Proofs.Parsing.TokenList

/-!
# A phrase is one operand to all that follows

The other half of the grammar. A phrase of a layer that stands in front of the parser is read
token by token, and leaves operators pending whose right operand may still grow. But **whatever
comes behind the phrase, if it does not go on with it, the parser does from there what it would
do with the phrase's tree as a single operand** (`run_phrase`).

Two conditions make a phrase a phrase of its place. `Admits`: nothing pending takes its first
operand away from it. `Ends`: what comes behind does not take its last one.
-/

set_option autoImplicit false

namespace FormulaSyntax

namespace Parser

/-- Pending stacks on which a phrase of a layer may begin: a binary operator on top binds less
    tightly than the phrase, and what follows a prefix operator is a unit. -/
def Admits (l : Layer) : List Pending → Prop
  | .binary op _ :: _ => op.precedence < l.rank
  | .prefixed _ _ :: _ => l = .unit
  | .group _ :: _ | [] => True

/-- Tokens that may stand behind a phrase of a layer: an operator that comes next does not bind
    more tightly than the phrase, and no name becomes a reserved form. -/
def Ends (l : Layer) (rest : List Token) : Prop :=
  AllowsName rest ∧
    ∀ t tail op, rest = t :: tail → BinaryOp.ofKind? t.kind = some op → op.precedence ≤ l.rank

theorem Admits.tighter {l : Layer} {pending : List Pending} (h : Admits l pending) :
    Admits l.tighter pending := by
  unfold Admits at h ⊢
  split
  · exact Nat.lt_of_lt_of_le h l.rank_le_rank_tighter
  · rw [show l = .unit from h]
    rfl
  · trivial
  · trivial

theorem admits_unit (pending : List Pending) : Admits .unit pending := by
  unfold Admits
  split
  · exact Layer.precedence_lt_rank_unit _
  · rfl
  · trivial
  · trivial

theorem Admits.folded {l : Layer} {pending : List Pending} (h : Admits l pending)
    (hl : l ≠ .unit) : Folded pending := by
  intro op span rest heq
  subst heq
  exact hl h

theorem Ends.tighter {l : Layer} {rest : List Token} (h : Ends l rest) : Ends l.tighter rest :=
  ⟨h.1, fun t tail op hr hop => Nat.le_trans (h.2 t tail op hr hop) l.rank_le_rank_tighter⟩

/-- A token of a symbol that is neither an operator nor part of a reserved form ends all phrases. -/
theorem ends_of_symbol {t : Token} {s : Symbol} (l : Layer) (rest : List Token)
    (ht : t.lexeme = .symbol s) (hname : reservedBehindName? (.symbol s) = none)
    (hop : BinaryOp.ofSymbol? s = none) : Ends l (t :: rest) := by
  have hk : t.kind = .symbol s := by rw [Token.kind, ht, Lexeme.kind]
  refine ⟨?_, ?_⟩
  · rintro u tail heq
    obtain ⟨rfl, rfl⟩ := List.cons.inj heq
    rw [hk, hname]
  · rintro u tail op heq hu
    obtain ⟨rfl, rfl⟩ := List.cons.inj heq
    rw [hk, BinaryOp.ofKind?, hop] at hu
    cases hu

/-- Neither does a binary operator of a layer bind more tightly than the layer's phrases. -/
theorem ends_of_operator {t : Token} {op : BinaryOp} (rest : List Token)
    (ht : t.lexeme = .symbol op.symbol) : Ends (.ofOperator op) (t :: rest) := by
  have hk : t.kind = .symbol op.symbol := by rw [Token.kind, ht, Lexeme.kind]
  refine ⟨?_, ?_⟩
  · rintro u tail heq
    obtain ⟨rfl, rfl⟩ := List.cons.inj heq
    rw [hk]
    cases op <;> rfl
  · rintro u tail op' heq hu
    obtain ⟨rfl, rfl⟩ := List.cons.inj heq
    rw [hk, BinaryOp.ofKind?_symbol] at hu
    obtain rfl : op = op' := Option.some.inj hu
    exact Nat.le_of_eq (Layer.rank_ofOperator op).symm

/-! ## Stacks that no step can tell apart -/

theorem run_congr {held held' : Stacks} {place : Place} {p : Parser}
    (h : step held place p = step held' place p) : run held place p = run held' place p := by
  cases hs : step held' place p with
  | error e q => rw [run_of_error hs, run_of_error (h.trans hs)]
  | ok o q =>
    cases o with
    | next held'' place' => rw [run_of_next hs, run_of_next (h.trans hs)]
    | done result => rw [run_of_done hs, run_of_done (h.trans hs)]

theorem foldPrefixes_of_folded {s : Stacks} (h : Folded s.pending) : s.foldPrefixes = .ok s := by
  obtain ⟨operands, pending, openGroups⟩ := s
  match pending with
  | [] => rfl
  | .binary _ _ :: _ => rfl
  | .group _ :: _ => rfl
  | .prefixed op span :: rest => exact absurd rfl (h op span rest)

theorem operatorStep_of_fold {held folded : Stacks} (h : held.foldPrefixes = .ok folded)
    (p : Parser) : operatorStep held p = behindOperand folded p := by
  rw [operatorStep, h]
  rfl

/-- A prefix operator and its operand are the operation that they make up. -/
theorem operatorStep_prefixed (held : Stacks) (op : PrefixOp) (span : Span) (e : Expr) :
    operatorStep ((held.push (.prefixed op span)).pushOperand e)
      = operatorStep (held.pushOperand (.prefixed op e)) := rfl

theorem reduce_binary {op : BinaryOp} {incoming : Option BinaryOp}
    (h : Stacks.yieldsTo op incoming = true) (left right : Expr) (operands : List Expr)
    (span : Span) (pending : List Pending) (openGroups : Nat) :
    Stacks.reduce ⟨right :: left :: operands, .binary op span :: pending, openGroups⟩ incoming
      = Stacks.reduce ⟨.binary left op right :: operands, pending, openGroups⟩ incoming := by
  rw [Stacks.reduce, Stacks.reduce, Stacks.reducing, if_pos h]

/-- **A binary operator with both operands is the operation that they make up**, unless an
operator comes next that takes the right operand away. -/
theorem operatorStep_binary {op : BinaryOp} {span : Span} {left right : Expr}
    {operands : List Expr} {pending : List Pending} {openGroups : Nat} {rest : List Token}
    (hf : Folded pending) (hends : Ends (.ofOperator op) rest) (asked : Nat) :
    operatorStep ⟨right :: left :: operands, .binary op span :: pending, openGroups⟩
        (onTokens rest asked)
      = operatorStep ⟨.binary left op right :: operands, pending, openGroups⟩
        (onTokens rest asked) := by
  -- Each of the three ways on from here reduces first, and reducing begins with this operator.
  have hred : ∀ incoming, Stacks.yieldsTo op incoming = true →
      Stacks.reduce ⟨right :: left :: operands, .binary op span :: pending, openGroups⟩ incoming
        = Stacks.reduce ⟨.binary left op right :: operands, pending, openGroups⟩ incoming :=
    fun incoming h => reduce_binary h left right operands span pending openGroups
  have hfinish : finish ⟨right :: left :: operands, .binary op span :: pending, openGroups⟩
      = finish ⟨.binary left op right :: operands, pending, openGroups⟩ := by
    rw [finish, finish, Stacks.result, Stacks.result, hred none rfl]
    rfl
  have hclose : closeGroup ⟨right :: left :: operands, .binary op span :: pending, openGroups⟩
      = closeGroup ⟨.binary left op right :: operands, pending, openGroups⟩ := by
    rw [closeGroup, closeGroup, Stacks.closeGroup, Stacks.closeGroup, hred none rfl]
  have hbinary : Folded (.binary op span :: pending) := by
    intro op' span' others heq
    cases heq
  rw [operatorStep_of_fold (foldPrefixes_of_folded hbinary),
    operatorStep_of_fold (foldPrefixes_of_folded hf)]
  cases rest with
  | nil => rw [behindOperand_of_none rfl, behindOperand_of_none rfl, hfinish]
  | cons t tail =>
    have hk : (onTokens (t :: tail) asked).currentKind? = some t.kind := rfl
    have hsame : closes ⟨.binary left op right :: operands, pending, openGroups⟩ t.kind
        = closes ⟨right :: left :: operands, .binary op span :: pending, openGroups⟩ t.kind := rfl
    cases hcloses : closes ⟨right :: left :: operands, .binary op span :: pending, openGroups⟩
        t.kind with
    | true =>
      rw [behindOperand_of_closes hk hcloses, behindOperand_of_closes hk (hsame.trans hcloses),
        hclose]
    | false =>
      cases hop : BinaryOp.ofKind? t.kind with
      | none =>
        rw [behindOperand_of_other hk hcloses hop,
          behindOperand_of_other hk (hsame.trans hcloses) hop, hfinish]
      | some op' =>
        have hyield : Stacks.yieldsTo op (some op') = true := by
          have hle := hends.2 t tail op' rfl hop
          rw [Layer.rank_ofOperator] at hle
          exact decide_eq_true hle
        rw [behindOperand_of_operator hk hcloses hop,
          behindOperand_of_operator hk (hsame.trans hcloses) hop, takeOperator_onTokens hop,
          takeOperator_onTokens hop, hred (some op') hyield]

/-! ## Reading a phrase -/

theorem step_closeGroup {t : Token} (ht : t.lexeme = .symbol .rightParen) (held : Stacks)
    (span : Span) (e : Expr) (rest : List Token) (asked : Nat) :
    step ((held.push (.group span)).pushOperand e) .operator (onTokens (t :: rest) asked)
      = .ok (.next (held.pushOperand e) .operator) (onTokens rest (asked + 1)) := by
  have hk : t.kind = .symbol .rightParen := by rw [Token.kind, ht, Lexeme.kind]
  have hcloses : closes ((held.push (.group span)).pushOperand e) t.kind = true := by
    simp [closes, hk, Stacks.push, Stacks.pushOperand, Pending.groupSpan?]
  have hf : Folded ((held.push (.group span)).pushOperand e).pending := by
    intro op span' others heq
    cases heq
  show operatorStep _ _ = _
  rw [operatorStep_of_fold (foldPrefixes_of_folded hf), behindOperand_of_closes rfl hcloses,
    closeGroup, bind_of_ok (shift_onTokens (t :: rest) asked)]
  rfl

/-- On stacks that admit a phrase of the operator's layer nothing yields to the operator. -/
theorem reduce_of_admits {op : BinaryOp} {s : Stacks}
    (h : Admits (.ofOperator op) s.pending) : s.reduce (some op) = .ok s := by
  obtain ⟨operands, pending, openGroups⟩ := s
  match pending, h with
  | [], _ => rfl
  | .group _ :: _, _ => rfl
  | .prefixed _ _ :: _, _ => rfl
  | .binary top span :: below, h =>
    have hstay : Stacks.yieldsTo top (some op) = false := by
      have hlt : top.precedence < (Layer.ofOperator op).rank := h
      rw [Layer.rank_ofOperator] at hlt
      exact decide_eq_false (Nat.not_le_of_lt hlt)
    simp [Stacks.reduce, Stacks.reducing, hstay]

theorem step_operator {t : Token} {op : BinaryOp} (ht : t.lexeme = .symbol op.symbol)
    {held : Stacks} (hadmits : Admits (.ofOperator op) held.pending) (e : Expr)
    (rest : List Token) (asked : Nat) :
    step (held.pushOperand e) .operator (onTokens (t :: rest) asked)
      = .ok (.next ((held.pushOperand e).push (.binary op t.span)) .operand)
        (onTokens rest (asked + 1)) := by
  have hk : t.kind = .symbol op.symbol := by rw [Token.kind, ht, Lexeme.kind]
  have hop : BinaryOp.ofKind? t.kind = some op := by rw [hk, BinaryOp.ofKind?_symbol]
  have hred : (held.pushOperand e).reduce (some op) = .ok (held.pushOperand e) :=
    reduce_of_admits hadmits
  have hcloses : closes (held.pushOperand e) t.kind = false := by
    rw [closes, hk]
    cases op <;> simp [BinaryOp.symbol]
  have hf : Folded (held.pushOperand e).pending :=
    hadmits.folded (by cases op <;> decide)
  show operatorStep _ _ = _
  rw [operatorStep_of_fold (foldPrefixes_of_folded hf), behindOperand_of_operator rfl hcloses hop,
    takeOperator_onTokens hop, hred]
  rfl

/-- A token that is a literal by itself is one operand, wherever it stands. -/
theorem run_literal {l : Lexeme} {value : Literal} {tokens : List Token}
    (hl : ∀ t : Token, t.lexeme = l → literalOf t = .ok value)
    (htokens : tokens.map Token.lexeme = [l]) (held : Stacks) (rest : List Token) (asked : Nat) :
    run held .operand (onTokens (tokens ++ rest) asked)
      = run (held.pushOperand (.literal value)) .operator
        (onTokens rest (asked + tokens.length)) := by
  obtain ⟨t, rfl, ht⟩ := List.map_eq_singleton_iff.mp htokens
  exact run_of_next (step_literal (hl t ht) held rest asked)

/-- **A phrase is read, and is one operand to all that follows.** The induction is on the
    derivation, for all stacks that admit the phrase and all that may stand behind it. -/
theorem run_phrase {l : Layer} {phrase : List Lexeme} {e : Expr} (h : Derives l phrase e) :
    ∀ {tokens : List Token} {held : Stacks} {rest : List Token} (asked : Nat),
      tokens.map Token.lexeme = phrase → Admits l held.pending → Ends l rest →
        run held .operand (onTokens (tokens ++ rest) asked)
          = run (held.pushOperand e) .operator (onTokens rest (asked + tokens.length)) := by
  induction h with
  | number value =>
    intro tokens held rest asked htokens _ _
    apply run_literal _ htokens
    intro t ht
    simp only [literalOf, ht]
  | string text =>
    intro tokens held rest asked htokens _ _
    apply run_literal _ htokens
    intro t ht
    simp only [literalOf, ht]
  | truth value =>
    intro tokens held rest asked htokens _ _
    apply run_literal _ htokens
    intro t ht
    simp only [literalOf, ht]
  | name text =>
    intro tokens held rest asked htokens _ hends
    obtain ⟨t, rfl, ht⟩ := List.map_eq_singleton_iff.mp htokens
    exact run_of_next (step_name ht hends.1 held asked)
  | @prefixed op phrase e _ ih =>
    intro tokens held rest asked htokens _ hends
    obtain ⟨t, tokens, rfl, ht, htokens⟩ := List.map_eq_cons_iff.mp htokens
    have hk : t.kind = .symbol op.symbol := by rw [Token.kind, ht, Lexeme.kind]
    have hopen : opening? t.kind = some (.prefixed op) := by rw [hk]; cases op <;> rfl
    rw [List.cons_append, run_of_next (step_opening hopen held (tokens ++ rest) asked),
      ih (asked + 1) htokens (admits_unit _) hends, Nat.add_right_comm]
    exact run_congr (congrFun (operatorStep_prefixed held op t.span e) _)
  | @group phrase e _ ih =>
    intro tokens held rest asked htokens _ _
    obtain ⟨t, tokens, rfl, ht, htokens⟩ := List.map_eq_cons_iff.mp htokens
    obtain ⟨inside, closing, rfl, hinside, hclosing⟩ := List.map_eq_append_iff.mp htokens
    obtain ⟨u, rfl, hu⟩ := List.map_eq_singleton_iff.mp hclosing
    have hk : t.kind = .symbol .leftParen := by rw [Token.kind, ht, Lexeme.kind]
    have hopen : opening? t.kind = some .group := by rw [hk]; rfl
    have hends : Ends .equality (u :: rest) := ends_of_symbol .equality rest hu rfl rfl
    have hroom : Admits .equality (held.push (.group t.span)).pending := trivial
    rw [List.cons_append, run_of_next (step_opening hopen held _ asked), List.append_assoc,
      List.singleton_append, ih (asked + 1) hinside hroom hends,
      run_of_next (step_closeGroup hu held t.span e rest _)]
    congr 2
    simp only [List.length_cons, List.length_append, List.length_nil]
    omega
  | operand _ ih =>
    intro tokens held rest asked htokens hadmits hends
    exact ih asked htokens hadmits.tighter hends.tighter
  | @binary l op first second left right hop _ _ ihl ihr =>
    intro tokens held rest asked htokens hadmits hends
    obtain rfl := Layer.mem_operators_iff.mp hop
    obtain ⟨before, behind, rfl, hbefore, hbehind⟩ := List.map_eq_append_iff.mp htokens
    obtain ⟨t, after, rfl, ht, hafter⟩ := List.map_eq_cons_iff.mp hbehind
    have hroom : Admits (Layer.ofOperator op).tighter
        ((held.pushOperand left).push (.binary op t.span)).pending := by
      show op.precedence < (Layer.ofOperator op).tighter.rank
      rw [Layer.rank_tighter_ofOperator]
      exact Nat.lt_succ_self _
    have hf : Folded held.pending := hadmits.folded (by cases op <;> decide)
    -- The left operand ends in front of the operator, and the right one is read behind it with
    -- the operator pending. Then both stand on the stack, as `operatorStep_binary` has them.
    rw [List.append_assoc, List.cons_append,
      ihl asked hbefore hadmits (ends_of_operator (after ++ rest) ht),
      run_of_next (step_operator ht hadmits left (after ++ rest) _),
      ihr _ hafter hroom hends.tighter]
    have hasked : asked + before.length + 1 + after.length
        = asked + (before ++ t :: after).length := by
      simp only [List.length_cons, List.length_append]
      omega
    rw [hasked]
    exact run_congr (operatorStep_binary hf hends _)

end Parser

end FormulaSyntax
