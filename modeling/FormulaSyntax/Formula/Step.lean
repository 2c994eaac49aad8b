import FormulaSyntax.Formula.Lookahead
import FormulaSyntax.Formula.Stacks

/-!
# The steps of reading an expression

An expression is read token by token with the stacks of `Stacks`. At any time the reader stands
at one of two places: where an **operand** is due, or, with an operand just complete, where an
**operator** may follow. A `step` looks at the current token, takes it, and goes on at one of the
two places; or it ends the expression without taking anything.

* Where an operand is due: prefix operators and opening parentheses are put on the stack, and an
  operand is still due. A literal or a name is the operand. Anything else ends the reading; that
  is an error unless nothing has been read at all.
* Where an operator may follow: the prefix operators on top are applied to the operand. Then a
  parenthesis that closes one of this expression is taken, and what it closes is an operand
  complete in its turn; a binary operator is taken, and an operand is due; anything else ends the
  expression.

Every step that goes on has taken a token; `stepTakes` says so, and it is why repeated steps come
to an end.
-/

set_option autoImplicit false

namespace FormulaSyntax

namespace Parser

/-- A fault of the stacks ends the parse. -/
def orFault {α : Type} : Except Fault α → ParseM α
  | .ok a => pure a
  | .error fault => throw (.internal fault)

/-! ## Operands -/

/-- The text of a token that is known to carry one. -/
def textOf (t : Token) : Except Fault String :=
  match t.lexeme with
  | .name text | .string text => .ok text
  | .number _ | .truth _ | .symbol _ => .error (.payloadMismatch t.kind)

/-- The literal that a token is. Any other token is a fault, which the parser's own checks rule
    out. -/
def literalOf (t : Token) : Except Fault Literal :=
  match t.lexeme with
  | .string text => .ok (.text text)
  | .number value => .ok (.number value)
  | .truth value => .ok (.truth value)
  | .name _ | .symbol _ => .error (.payloadMismatch t.kind)

/-- What a name together with the token behind it would be, if the language had it. -/
def reservedBehindName? : TokenKind → Option String
  | .symbol .leftParen => some "function call"
  | .symbol .dot => some "member access"
  | _ => none

/-- What a token at the place of an operand would begin, if the language had it. -/
def reservedOperand? : Symbol → Option String
  | .leftBracket => some "list literal"
  | .leftBrace => some "collection literal"
  | _ => none

/-- The error for a name and a current token that make up a reserved form. -/
def reservedForm? (name : Token) (p : Parser) : Option ParseError :=
  match p.current with
  | some t =>
    (reservedBehindName? t.kind).map fun what =>
      .syntactic (.unsupported what) (name.span.merge t.span)
  | none => none

/-- Refuses a name that makes up a reserved form with the current token. -/
def refuseReserved (name : Token) : ParseM Unit := fun p =>
  match reservedForm? name p with
  | some error => .error error p
  | none => .ok () p

def takeLiteral : ParseM Expr := do
  let t ← bump
  let value ← orFault (literalOf t)
  return .literal value

/-- The token behind the name is looked at when the name has been taken, so it is the current one
    then. -/
def takeName : ParseM Expr := do
  let t ← bump
  refuseReserved t
  let text ← orFault (textOf t)
  return .ident ⟨text⟩

/-- What to do about a token at the place of an operand. -/
def primaryAt (t : Token) : ParseM (Option Expr) :=
  match t.kind with
  | .string | .number | .truth _ => some <$> takeLiteral
  | .name => some <$> takeName
  | .symbol s =>
    match reservedOperand? s with
    | some what => throw (.syntactic (.unsupported what) t.span)
    | none => pure none

/-- A literal or a name, if the current token is one. -/
def primary : ParseM (Option Expr) := fun p =>
  match p.current with
  | some t => primaryAt t p
  | none => .ok none p

/-! ## Steps -/

/-- Where the reader of an expression stands. -/
inductive Place where
  | operand
  | operator
deriving DecidableEq

inductive Outcome where
  /-- The expression goes on. -/
  | next (held : Stacks) (place : Place)
  /-- The expression is complete, or there is none. -/
  | done (result : Option Expr)

/-- What a token opens where an operand is due. -/
def opening? : TokenKind → Option (Span → Pending)
  | .symbol .bang => some (.prefixed .not)
  | .symbol .minus => some (.prefixed .negate)
  | .symbol .leftParen => some .group
  | _ => none

/-- Puts the current token on the stack as what it opens. -/
def takeOpening (held : Stacks) (opened : Span → Pending) : ParseM Outcome := do
  let t ← bump
  return .next (held.push (opened t.span)) .operand

/-- Reads an operand that is a token of its own, or ends the reading. -/
def takePrimary (held : Stacks) : ParseM Outcome := do
  match ← primary with
  | some e => return .next (held.pushOperand e) .operator
  | none =>
    match held.pending with
    | [] => return .done none
    | top :: _ => throw top.missingOperand

def operandStep (held : Stacks) : ParseM Outcome := fun p =>
  match p.currentKind?.bind opening? with
  | some opened => takeOpening held opened p
  | none => takePrimary held p

/-- The error for an expression that ends with a parenthesis open. It covers the token that stands
    where the closing parenthesis is missing, unless that is the end of the source. -/
def unclosedGroup (held : Stacks) (p : Parser) : ParseError :=
  match held.innermostGroup? with
  | none => .internal .brokenReduction
  | some opened =>
    match p.current with
    | some t =>
      if t.isEndOfFile then .syntactic .unclosedParen opened
      else .syntactic .unclosedParen (opened.merge t.span)
    | none => .syntactic .unclosedParen opened

def refuseOpenGroup (held : Stacks) : ParseM Unit := fun p =>
  if 0 < held.openGroups then .error (unclosedGroup held p) p else .ok () p

def finish (held : Stacks) : ParseM Outcome := do
  refuseOpenGroup held
  let e ← orFault held.result
  return .done (some e)

def closeGroup (held : Stacks) : ParseM Outcome := do
  let _ ← shift
  let closed ← orFault held.closeGroup
  return .next closed .operator

def takeOperator (held : Stacks) : ParseM Outcome := do
  let t ← bump
  let op ← orFault (BinaryOp.ofKind t.kind)
  let reduced ← orFault (held.reduce (some op))
  return .next (reduced.push (.binary op t.span)) .operand

/-- Whether a kind of token closes a parenthesis of the expression. -/
def closes (held : Stacks) (kind : TokenKind) : Bool :=
  decide (0 < held.openGroups) && kind == .symbol .rightParen

/-- What to do about the current token behind an operand, once its prefix operators are applied. -/
def behindOperand (held : Stacks) : ParseM Outcome := fun p =>
  match p.currentKind? with
  | some kind =>
    if closes held kind then closeGroup held p
    else if (BinaryOp.ofKind? kind).isSome then takeOperator held p
    else finish held p
  | none => finish held p

def operatorStep (held : Stacks) : ParseM Outcome := do
  let folded ← orFault held.foldPrefixes
  behindOperand folded

def step (held : Stacks) : Place → ParseM Outcome
  | .operand => operandStep held
  | .operator => operatorStep held

/-! ## Every step that goes on takes a token -/

/-- A result of the stacks leaves the parser as it is. -/
theorem orFault_eq_ok {α : Type} {r : Except Fault α} {a : α} {p q : Parser} :
    orFault r p = .ok a q ↔ r = .ok a ∧ p = q := by
  cases r with
  | ok b =>
    rw [orFault, pure_eq_ok, Except.ok.injEq]
  | error fault =>
    constructor
    · exact fun h => absurd h throw_ne_ok
    · exact fun h => nomatch h.1

/-- Taking a token makes the tokens ahead shorter by just that one. -/
theorem upcoming_of_takeLiteral {p q : Parser} {e : Expr} (h : takeLiteral p = .ok e q) :
    ∃ t, p.current = some t ∧ p.upcoming = t :: q.upcoming := by
  obtain ⟨t, p₁, hb, h⟩ := bind_eq_ok.mp h
  obtain ⟨value, p₂, hl, h⟩ := bind_eq_ok.mp h
  obtain ⟨-, rfl⟩ := orFault_eq_ok.mp hl
  obtain ⟨-, rfl⟩ := pure_eq_ok.mp h
  exact ⟨t, upcoming_eq_cons_of_bump hb⟩

theorem eq_of_refuseReserved {p q : Parser} {name : Token} {u : Unit}
    (h : refuseReserved name p = .ok u q) : reservedForm? name p = none ∧ q = p := by
  unfold refuseReserved at h
  split at h
  · exact nomatch h
  · next hr => exact ⟨hr, (EStateM.Result.ok.inj h).2.symm⟩

theorem upcoming_of_takeName {p q : Parser} {e : Expr} (h : takeName p = .ok e q) :
    ∃ t, p.current = some t ∧ p.upcoming = t :: q.upcoming := by
  obtain ⟨t, p₁, hb, h₁⟩ := bind_eq_ok.mp h
  obtain ⟨_, p₂, hr, h₂⟩ := bind_eq_ok.mp h₁
  obtain ⟨text, p₃, ht, h₃⟩ := bind_eq_ok.mp h₂
  obtain ⟨-, rfl⟩ := eq_of_refuseReserved hr
  obtain ⟨-, rfl⟩ := orFault_eq_ok.mp ht
  obtain ⟨-, rfl⟩ := pure_eq_ok.mp h₃
  exact ⟨t, upcoming_eq_cons_of_bump hb⟩

theorem map_some_eq_ok {α : Type} {x : ParseM α} {p q : Parser} {r : Option α} :
    (some <$> x) p = .ok r q ↔ ∃ a, r = some a ∧ x p = .ok a q := by
  rw [map_eq_pure_bind, bind_eq_ok]
  constructor
  · rintro ⟨a, p₁, hx, h⟩
    obtain ⟨rfl, rfl⟩ := pure_eq_ok.mp h
    exact ⟨a, rfl, hx⟩
  · rintro ⟨a, rfl, hx⟩
    exact ⟨a, q, hx, pure_eq_ok.mpr ⟨rfl, rfl⟩⟩

/-- A primary that is there takes its token; looking for one that is not leaves the parser as it
    was. -/
theorem upcoming_of_primary {p q : Parser} {r : Option Expr} (h : primary p = .ok r q) :
    (r = none ∧ q = p) ∨
      (r.isSome ∧ ∃ t, p.current = some t ∧ p.upcoming = t :: q.upcoming) := by
  unfold primary at h
  split at h
  · next t _ =>
    rcases hk : t.kind with sym | _ | _ | _ | value <;> simp only [primaryAt, hk] at h
    case symbol =>
      cases hr : reservedOperand? sym with
      | some what => exact absurd (hr ▸ h) throw_ne_ok
      | none =>
        rw [hr] at h
        obtain ⟨rfl, rfl⟩ := pure_eq_ok.mp h
        exact Or.inl ⟨rfl, rfl⟩
    case name =>
      obtain ⟨e, rfl, he⟩ := map_some_eq_ok.mp h
      exact Or.inr ⟨rfl, upcoming_of_takeName he⟩
    all_goals
      obtain ⟨e, rfl, he⟩ := map_some_eq_ok.mp h
      exact Or.inr ⟨rfl, upcoming_of_takeLiteral he⟩
  · obtain ⟨rfl, rfl⟩ := EStateM.Result.ok.inj h
    exact Or.inl ⟨rfl, rfl⟩

/-- A step that goes on has taken a token. One that ends the expression has not, and yields one
    only where an operator may follow. -/
def StepTakes (p : Parser) (place : Place) (q : Parser) : Outcome → Prop
  | .next _ _ => ∃ t, p.upcoming = t :: q.upcoming
  | .done r => q = p ∧ (r.isSome → place = .operator)

theorem stepTakes_takePrimary {p q : Parser} {s : Stacks} {o : Outcome}
    (h : takePrimary s p = .ok o q) : StepTakes p .operand q o := by
  obtain ⟨r, p₁, hp, h₁⟩ := bind_eq_ok.mp h
  rcases upcoming_of_primary hp with ⟨rfl, rfl⟩ | ⟨hr, t, -, ht⟩
  · cases hpend : s.pending with
    | nil =>
      simp only [hpend] at h₁
      obtain ⟨rfl, rfl⟩ := pure_eq_ok.mp h₁
      exact ⟨rfl, fun hsome => nomatch hsome⟩
    | cons top rest =>
      simp only [hpend] at h₁
      exact absurd h₁ throw_ne_ok
  · cases r with
    | some e =>
      obtain ⟨rfl, rfl⟩ := pure_eq_ok.mp h₁
      exact ⟨t, ht⟩
    | none => exact nomatch hr

theorem stepTakes_operand {p q : Parser} {s : Stacks} {o : Outcome}
    (h : operandStep s p = .ok o q) : StepTakes p .operand q o := by
  unfold operandStep at h
  split at h
  · obtain ⟨t, p₁, hb, h₁⟩ := bind_eq_ok.mp h
    obtain ⟨rfl, rfl⟩ := pure_eq_ok.mp h₁
    exact ⟨t, (upcoming_eq_cons_of_bump hb).2⟩
  · exact stepTakes_takePrimary h

theorem stepTakes_finish {p q : Parser} {s : Stacks} {o : Outcome} (h : finish s p = .ok o q) :
    StepTakes p .operator q o := by
  obtain ⟨_, p₁, hu, h⟩ := bind_eq_ok.mp h
  have hp₁ : p₁ = p := by
    unfold refuseOpenGroup at hu
    split at hu
    · exact nomatch hu
    · exact (EStateM.Result.ok.inj hu).2.symm
  obtain ⟨e, p₂, he, h⟩ := bind_eq_ok.mp h
  obtain ⟨-, rfl⟩ := orFault_eq_ok.mp he
  obtain ⟨rfl, rfl⟩ := pure_eq_ok.mp h
  exact ⟨hp₁, fun _ => rfl⟩

theorem stepTakes_closeGroup {p q : Parser} {s : Stacks} {o : Outcome} {t : Token}
    (hc : p.current = some t) (h : closeGroup s p = .ok o q) : StepTakes p .operator q o := by
  obtain ⟨passed, p₁, hs, h₁⟩ := bind_eq_ok.mp h
  obtain ⟨closed, p₂, hg, h₂⟩ := bind_eq_ok.mp h₁
  obtain ⟨-, rfl⟩ := orFault_eq_ok.mp hg
  obtain ⟨rfl, rfl⟩ := pure_eq_ok.mp h₂
  exact ⟨t, upcoming_eq_cons_of_shift hc hs⟩

theorem stepTakes_takeOperator {p q : Parser} {s : Stacks} {o : Outcome}
    (h : takeOperator s p = .ok o q) : StepTakes p .operator q o := by
  obtain ⟨t, p₁, hb, h₁⟩ := bind_eq_ok.mp h
  obtain ⟨op, p₂, ho, h₂⟩ := bind_eq_ok.mp h₁
  obtain ⟨reduced, p₃, hr, h₃⟩ := bind_eq_ok.mp h₂
  obtain ⟨-, rfl⟩ := orFault_eq_ok.mp ho
  obtain ⟨-, rfl⟩ := orFault_eq_ok.mp hr
  obtain ⟨rfl, rfl⟩ := pure_eq_ok.mp h₃
  exact ⟨t, (upcoming_eq_cons_of_bump hb).2⟩

theorem stepTakes_operator {p q : Parser} {s : Stacks} {o : Outcome}
    (h : operatorStep s p = .ok o q) : StepTakes p .operator q o := by
  obtain ⟨folded, p₁, hf, h₁⟩ := bind_eq_ok.mp h
  obtain ⟨-, rfl⟩ := orFault_eq_ok.mp hf
  unfold behindOperand at h₁
  split at h₁
  · next kind hk =>
    obtain ⟨t, hc, -⟩ := Option.map_eq_some_iff.mp hk
    split at h₁
    · exact stepTakes_closeGroup hc h₁
    · split at h₁
      · exact stepTakes_takeOperator h₁
      · exact stepTakes_finish h₁
  · exact stepTakes_finish h₁

/-- **A step that goes on has taken a token**, which is what repeated steps end by. -/
theorem stepTakes {p q : Parser} {s : Stacks} {place : Place} {o : Outcome}
    (h : step s place p = .ok o q) : StepTakes p place q o := by
  cases place with
  | operand => exact stepTakes_operand h
  | operator => exact stepTakes_operator h

end Parser

end FormulaSyntax
