import FormulaSyntax.Proofs.Parsing.Items

/-!
# The parser on a list of tokens

A parser that reads a list of tokens, with no error and no gap in it, is at any time determined
by the tokens that are left and the number of times it has asked: `onTokens tokens asked`. Each
operation of the parser is an equation between such states.

Those equations give the other half of the grammar: **a phrase that stands in front of the parser
is read, and is one operand to all that follows**. `run_phrase` says so for every state of the
stacks that admits the phrase, and everything behind it.
-/

set_option autoImplicit false

namespace FormulaSyntax

namespace Parser

/-- A fresh parser on a list of tokens. -/
def ofTokens (tokens : List Token) : Parser := ofFeed (Feed.ofList (tokens.map Except.ok))

/-- A primed parser with a list of tokens left. -/
def onTokens (tokens : List Token) (asked : Nat) : Parser where
  source := ⟨(tokens.drop 2).map fun t => some (.ok t), asked⟩
  current := tokens.head?
  next := tokens[1]?
  primed := true

@[simp] theorem current_onTokens (tokens : List Token) (asked : Nat) :
    (onTokens tokens asked).current = tokens.head? := rfl

@[simp] theorem currentKind?_onTokens (tokens : List Token) (asked : Nat) :
    (onTokens tokens asked).currentKind? = tokens.head?.map Token.kind := rfl

/-- Two of the tokens are in view and the others to come; there is no gap between them. -/
theorem upcoming_onTokens (tokens : List Token) (asked : Nat) :
    (onTokens tokens asked).upcoming = tokens := by
  have hlist : ∀ ts : List Token, tokensUpTo (ts.map fun t => some (.ok t)) = ts := by
    intro ts
    induction ts with
    | nil => rfl
    | cons t ts ih => rw [List.map_cons, tokensUpTo, ih]
  match tokens with
  | [] => rfl
  | [_] => rfl
  | t :: u :: rest =>
    show t :: u :: tokensUpTo (rest.map fun t => some (.ok t)) = t :: u :: rest
    rw [hlist]

theorem shift_onTokens (tokens : List Token) (asked : Nat) :
    shift (onTokens tokens asked) = .ok tokens.head? (onTokens tokens.tail (asked + 1)) := by
  match tokens with
  | [] => rfl
  | [_] => rfl
  | [_, _] => rfl
  | _ :: _ :: _ :: _ => rfl

theorem bump_onTokens (t : Token) (rest : List Token) (asked : Nat) :
    bump (onTokens (t :: rest) asked) = .ok t (onTokens rest (asked + 1)) := by
  simp only [bump, shift_onTokens, List.head?_cons, List.tail_cons]

/-- A fresh parser asks twice, also if there are not so many tokens. -/
theorem prime_ofTokens (tokens : List Token) :
    prime (ofTokens tokens) = .ok () (onTokens tokens 2) := by
  match tokens with
  | [] => rfl
  | [_] => rfl
  | t :: u :: rest =>
    have hrest : (rest.map Except.ok).map some
        = rest.map fun t => some (Except.ok t : Except LexError Token) := by
      rw [List.map_map]
      rfl
    show EStateM.Result.ok () (Parser.mk ⟨(rest.map Except.ok).map some, 2⟩ (some t) (some u) true)
      = .ok () (onTokens (t :: u :: rest) 2)
    rw [hrest]
    rfl

/-! ## Steps -/

theorem bind_of_ok {α β : Type} {x : ParseM α} {f : α → ParseM β} {p q : Parser} {a : α}
    (h : x p = .ok a q) : (x >>= f) p = f a q := by
  simp only [bind, EStateM.bind, h]

theorem bind_of_error {α β : Type} {x : ParseM α} {f : α → ParseM β} {p q : Parser}
    {e : ParseError} (h : x p = .error e q) : (x >>= f) p = .error e q := by
  simp only [bind, EStateM.bind, h]

theorem step_opening {t : Token} {opened : Span → Pending} (h : opening? t.kind = some opened)
    (held : Stacks) (rest : List Token) (asked : Nat) :
    step held .operand (onTokens (t :: rest) asked)
      = .ok (.next (held.push (opened t.span)) .operand) (onTokens rest (asked + 1)) := by
  have ho : (onTokens (t :: rest) asked).currentKind?.bind opening? = some opened := h
  simp only [step, operandStep, ho, takeOpening, bind_of_ok (bump_onTokens t rest asked)]
  rfl

/-- A unit becomes the operand on top, whatever the stacks hold. -/
theorem step_of_primary {t : Token} {e : Expr} {q : Parser} {rest : List Token} {asked : Nat}
    (ho : opening? t.kind = none) (h : primary (onTokens (t :: rest) asked) = .ok (some e) q)
    (held : Stacks) :
    step held .operand (onTokens (t :: rest) asked)
      = .ok (.next (held.pushOperand e) .operator) q := by
  have hb : (onTokens (t :: rest) asked).currentKind?.bind opening? = none := ho
  simp only [step, operandStep, hb, takePrimary, bind_of_ok h]
  rfl

theorem step_literal {t : Token} {value : Literal} (hl : literalOf t = .ok value)
    (held : Stacks) (rest : List Token) (asked : Nat) :
    step held .operand (onTokens (t :: rest) asked)
      = .ok (.next (held.pushOperand (.literal value)) .operator) (onTokens rest (asked + 1)) := by
  have htake : takeLiteral (onTokens (t :: rest) asked)
      = .ok (.literal value) (onTokens rest (asked + 1)) := by
    rw [takeLiteral, bind_of_ok (bump_onTokens t rest asked), hl]
    rfl
  have hmap : (some <$> takeLiteral) (onTokens (t :: rest) asked)
      = .ok (some (.literal value)) (onTokens rest (asked + 1)) :=
    map_some_eq_ok.mpr ⟨_, rfl, htake⟩
  cases hlex : t.lexeme with
  | symbol | name => simp [literalOf, hlex] at hl
  | number | string | truth =>
    have hk : t.kind = t.lexeme.kind := rfl
    rw [hlex] at hk
    refine step_of_primary (by rw [hk]; rfl) ?_ held
    show primaryAt t _ = _
    simp only [primaryAt, hk, Lexeme.kind]
    exact hmap

/-- Taking an operator depends on the stacks only through what reducing them gives. -/
theorem takeOperator_onTokens {t : Token} {op : BinaryOp} (hop : BinaryOp.ofKind? t.kind = some op)
    (held : Stacks) (rest : List Token) (asked : Nat) :
    takeOperator held (onTokens (t :: rest) asked)
      = (orFault (held.reduce (some op)) >>= fun reduced =>
          pure (.next (reduced.push (.binary op t.span)) .operand)) (onTokens rest (asked + 1)) := by
  have hofKind : BinaryOp.ofKind t.kind = .ok op := by simp only [BinaryOp.ofKind, hop]
  rw [takeOperator, bind_of_ok (bump_onTokens t rest asked), hofKind]
  rfl

/-- What may stand behind a name: nothing that makes up a reserved form with it. -/
def AllowsName (rest : List Token) : Prop :=
  ∀ t tail, rest = t :: tail → reservedBehindName? t.kind = none

theorem step_name {t : Token} {text : String} {rest : List Token} (hl : t.lexeme = .name text)
    (hrest : AllowsName rest) (held : Stacks) (asked : Nat) :
    step held .operand (onTokens (t :: rest) asked)
      = .ok (.next (held.pushOperand (.ident ⟨text⟩)) .operator) (onTokens rest (asked + 1)) := by
  have hreserved : reservedForm? t (onTokens rest (asked + 1)) = none := by
    cases rest with
    | nil => rfl
    | cons u tail =>
      simp only [reservedForm?, current_onTokens, List.head?_cons, hrest u tail rfl,
        Option.map_none]
  have hrefuse : refuseReserved t (onTokens rest (asked + 1))
      = .ok () (onTokens rest (asked + 1)) := by
    simp only [refuseReserved, hreserved]
  have htext : textOf t = .ok text := by simp only [textOf, hl]
  have htake : takeName (onTokens (t :: rest) asked)
      = .ok (.ident ⟨text⟩) (onTokens rest (asked + 1)) := by
    rw [takeName, bind_of_ok (bump_onTokens t rest asked), bind_of_ok hrefuse, htext]
    rfl
  have hk : t.kind = .name := by rw [Token.kind, hl, Lexeme.kind]
  refine step_of_primary (by rw [hk]; rfl) ?_ held
  show primaryAt t _ = _
  simp only [primaryAt, hk]
  exact map_some_eq_ok.mpr ⟨_, rfl, htake⟩

end Parser

end FormulaSyntax
