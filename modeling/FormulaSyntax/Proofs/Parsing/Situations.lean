import FormulaSyntax.Proofs.Parsing.Grammar

/-!
# Where a token stands

What a syntax error is called depends on the place of the token that the parser stops at, and on
nothing but the tokens in front of it. This module says so without a parser. A `Situation` is what
one has to know of those tokens, and is found from left to right, by passing one token at a time:

* where a **unit is due**, what it is due behind: nothing of the item yet, the equals sign of an
  assignment, a binary operator, a prefix operator or a parenthesis;
* behind a **unit that is complete**, the token that it ends with.

Both know the parentheses of the item that are still open. A minus is told apart by its place: it
is a prefix operator where a unit is due, and a binary operator behind one.

No token is passed that cannot go on with an item or end it; `blame` is the error for a token that
is met in a situation and cannot be passed. **A phrase leads from each place where a unit is due
to the end of a unit, with the same parentheses open** (`passAll_phrase`): so what is called
complete here is complete in the grammar too.
-/

set_option autoImplicit false

namespace FormulaSyntax

/-- What stands right in front of a place where a unit is due. -/
inductive Due where
  | item
  | equals (t : Token)
  | operator (t : Token)
  | prefixed (op : PrefixOp) (t : Token)
  | paren (t : Token)
deriving DecidableEq

def Due.isItem : Due → Bool
  | item => true
  | equals _ | operator _ | prefixed _ _ | paren _ => false

/-- Where the next token stands. The parentheses of the item that are open come innermost first;
    `alone` holds of a name that is all there is of the item. -/
inductive Situation where
  | operand (due : Due) (opened : List Token)
  | operator (last : Token) (alone : Bool) (opened : List Token)
deriving DecidableEq

namespace Situation

/-! ## Passing tokens -/

/-- At the start of an item. -/
def start : Situation := operand .item []

/-- Where a unit is due. -/
def passOperand (due : Due) (opened : List Token) (t : Token) : Option Situation :=
  match t.kind with
  | .symbol .bang => some (operand (.prefixed .not t) opened)
  | .symbol .minus => some (operand (.prefixed .negate t) opened)
  | .symbol .leftParen => some (operand (.paren t) (t :: opened))
  | .symbol .newLine => if due.isItem then some start else none
  | .symbol _ => none
  | .name => some (operator t due.isItem opened)
  | .number | .string | .truth _ => some (operator t false opened)

/-- Behind a unit. -/
def passOperator (alone : Bool) (opened : List Token) (t : Token) : Option Situation :=
  match t.kind, opened with
  | .symbol .rightParen, _ :: outer => some (operator t false outer)
  | .symbol .newLine, [] => some start
  | .symbol .assign, [] => if alone then some (operand (.equals t) []) else none
  | kind, _ =>
    if (BinaryOp.ofKind? kind).isSome then some (operand (.operator t) opened) else none

/-- The situation behind one more token, if that token may stand there. -/
def pass : Situation → Token → Option Situation
  | operand due opened => passOperand due opened
  | operator _ alone opened => passOperator alone opened

/-- The situation behind tokens from some situation on. -/
def passAll (s : Situation) (tokens : List Token) : Option Situation := tokens.foldlM pass s

/-- The situation behind the first tokens of a source. -/
def behind (tokens : List Token) : Option Situation := start.passAll tokens

/-- The token right in front, if it belongs to the item. -/
def previous? : Situation → Option Token
  | operand .item _ => none
  | operand (.equals t) _ | operand (.operator t) _ | operand (.prefixed _ t) _
  | operand (.paren t) _ => some t
  | operator last _ _ => some last

end Situation

/-! ## Blame -/

/-- The error for a unit that is missing. Only at the start of an item is it the token found there
    that is blamed. -/
def Due.blame : Due → Token → ParseError
  | item, t => .syntactic (.unexpectedToken t.kind) t.span
  | equals p, _ => .syntactic .emptyAssignment p.span
  | operator p, _ => .syntactic .danglingOperator p.span
  | prefixed op p, _ => .syntactic (.missingOperand op.char) p.span
  | paren p, _ => .syntactic .expectedExpression p.span

namespace Situation

/-- The error for a token that does not go on with an item whose last unit is complete. The
    innermost open parenthesis is blamed, together with the token unless that is the end. -/
def stranded (opened : List Token) (t : Token) : ParseError :=
  match opened with
  | paren :: _ =>
    .syntactic .unclosedParen (if t.isEndOfFile then paren.span else paren.span.merge t.span)
  | [] => .syntactic (.unexpectedToken t.kind) t.span

/-- Where a unit is due. A bracket and a brace would begin a form that is reserved. -/
def blameOperand (due : Due) (t : Token) : ParseError :=
  match t.kind with
  | .symbol .leftBracket => .syntactic (.unsupported "list literal") t.span
  | .symbol .leftBrace => .syntactic (.unsupported "collection literal") t.span
  | _ => due.blame t

/-- Behind a unit. A name together with a parenthesis or a dot would be a reserved form too. -/
def blameOperator (last : Token) (opened : List Token) (t : Token) : ParseError :=
  match last.kind, t.kind with
  | .name, .symbol .leftParen =>
    .syntactic (.unsupported "function call") (last.span.merge t.span)
  | .name, .symbol .dot => .syntactic (.unsupported "member access") (last.span.merge t.span)
  | _, _ => stranded opened t

/-- The error for a token at which the parser stops. -/
def blame : Situation → Token → ParseError
  | operand due _ => blameOperand due
  | operator last _ opened => blameOperator last opened

/-! ## Tokens one after the other -/

theorem passAll_append (s : Situation) (first second : List Token) :
    s.passAll (first ++ second) = (s.passAll first).bind (passAll · second) :=
  List.foldlM_append

theorem passAll_cons (s : Situation) (t : Token) (tokens : List Token) :
    s.passAll (t :: tokens) = (s.pass t).bind (passAll · tokens) :=
  List.foldlM_cons

theorem passAll_singleton (s : Situation) (t : Token) : s.passAll [t] = s.pass t := by
  rw [passAll_cons]
  cases s.pass t <;> rfl

/-- Situations are found one token at a time, from the left. -/
theorem behind_append_singleton {taken : List Token} {s : Situation} (h : behind taken = some s)
    (t : Token) : behind (taken ++ [t]) = s.pass t := by
  rw [behind, passAll_append, ← behind, h, Option.bind_some, passAll_singleton]

/-! ## Which tokens are passed -/

variable {t : Token}

theorem kind_of_symbol {s : Symbol} (ht : t.lexeme = .symbol s) : t.kind = .symbol s := by
  rw [Token.kind, ht, Lexeme.kind]

theorem pass_prefixOp {op : PrefixOp} (ht : t.kind = .symbol op.symbol) (due : Due)
    (opened : List Token) :
    (operand due opened).pass t = some (operand (.prefixed op t) opened) := by
  cases op <;> simp only [pass, passOperand, ht, PrefixOp.symbol]

theorem pass_paren (ht : t.kind = .symbol .leftParen) (due : Due) (opened : List Token) :
    (operand due opened).pass t = some (operand (.paren t) (t :: opened)) := by
  simp only [pass, passOperand, ht]

/-- Line breaks are passed in front of an item and behind one. -/
theorem pass_newLine_start (ht : t.kind = .symbol .newLine) : start.pass t = some start := by
  simp only [start, pass, passOperand, ht, Due.isItem, if_true]

theorem pass_newLine (ht : t.kind = .symbol .newLine) (last : Token) (alone : Bool) :
    (operator last alone []).pass t = some start := by
  simp only [pass, passOperator, ht]

theorem pass_name (ht : t.kind = .name) (due : Due) (opened : List Token) :
    (operand due opened).pass t = some (operator t due.isItem opened) := by
  simp only [pass, passOperand, ht]

/-- A token that is no symbol is a unit of its own. -/
theorem exists_pass_unit (ht : ∀ s, t.kind ≠ .symbol s) (due : Due) (opened : List Token) :
    ∃ alone, (operand due opened).pass t = some (operator t alone opened) := by
  cases hk : t.kind with
  | symbol s => exact absurd hk (ht s)
  | name => exact ⟨due.isItem, pass_name hk due opened⟩
  | number | string | truth => exact ⟨false, by simp only [pass, passOperand, hk]⟩

theorem pass_equals (ht : t.kind = .symbol .assign) (last : Token) :
    (operator last true []).pass t = some (operand (.equals t) []) := by
  simp only [pass, passOperator, ht, if_true]

theorem pass_closing (ht : t.kind = .symbol .rightParen) (last : Token) (alone : Bool)
    (paren : Token) (outer : List Token) :
    (operator last alone (paren :: outer)).pass t = some (operator t false outer) := by
  simp only [pass, passOperator, ht]

theorem pass_binary {op : BinaryOp} (ht : t.kind = .symbol op.symbol) (last : Token)
    (alone : Bool) (opened : List Token) :
    (operator last alone opened).pass t = some (operand (.operator t) opened) := by
  rw [pass, passOperator.eq_def, ht]
  cases op <;> cases opened <;> rfl

/-- The end marker is never passed. -/
theorem pass_endOfFile (s : Situation) (ht : t.kind = .endOfFile) : s.pass t = none := by
  cases s with
  | operand due opened =>
    rw [pass, passOperand, ht]
    rfl
  | operator last alone opened =>
    rw [pass, passOperator.eq_def, ht]
    cases opened <;> rfl

theorem passOperand_previous? {due : Due} {opened : List Token} {s : Situation}
    (h : passOperand due opened t = some s) : s = start ∨ s.previous? = some t := by
  unfold passOperand at h
  split at h
  case h_4 =>
    obtain ⟨-, rfl⟩ : due.isItem = true ∧ start = s := by simpa using h
    exact .inl rfl
  case h_5 => exact nomatch h
  all_goals
    obtain rfl := Option.some.inj h
    exact .inr rfl

theorem passOperator_previous? {alone : Bool} {opened : List Token} {s : Situation}
    (h : passOperator alone opened t = some s) : s = start ∨ s.previous? = some t := by
  unfold passOperator at h
  split at h
  · obtain rfl := Option.some.inj h
    exact .inr rfl
  · obtain rfl := Option.some.inj h
    exact .inl rfl
  all_goals
    obtain ⟨-, h⟩ := Option.ite_none_right_eq_some.mp h
    obtain rfl := Option.some.inj h
    exact .inr rfl

/-- Only at the start of an item there is no token in front that belongs to it; wherever there is
    one, it is the last one that was passed. -/
theorem getLast?_of_previous? {tokens : List Token} {s : Situation} (h : behind tokens = some s)
    {p : Token} (hp : s.previous? = some p) : tokens.getLast? = some p := by
  have hlast : s = start ∨ tokens.getLast? = s.previous? := by
    rcases List.eq_nil_or_concat tokens with rfl | ⟨taken, t, rfl⟩
    · exact .inl (Option.some.inj h).symm
    rw [List.concat_eq_append, List.getLast?_concat]
    rw [List.concat_eq_append] at h
    cases hbefore : behind taken with
    | none =>
      rw [behind, passAll_append, ← behind, hbefore] at h
      exact nomatch h
    | some before =>
      rw [behind_append_singleton hbefore] at h
      cases before with
      | operand due opened => exact (passOperand_previous? h).imp_right Eq.symm
      | operator last alone opened => exact (passOperator_previous? h).imp_right Eq.symm
  rcases hlast with rfl | hlast
  · exact nomatch hp
  · exact hlast.trans hp

/-! ## Phrases -/

/-- **A phrase leads to the end of a unit.** Parentheses that the phrase opens it closes again, in
    front of those that were open before. -/
theorem passAll_phrase {l : Layer} {phrase : List Lexeme} {e : Expr} (h : Derives l phrase e) :
    ∀ {tokens : List Token}, tokens.map Token.lexeme = phrase → ∀ due opened,
      ∃ last alone, (operand due opened).passAll tokens = some (operator last alone opened) := by
  have unit : ∀ {tokens : List Token} {lexeme : Lexeme}, tokens.map Token.lexeme = [lexeme] →
      (∀ s, lexeme.kind ≠ .symbol s) → ∀ due opened, ∃ last alone,
        (operand due opened).passAll tokens = some (operator last alone opened) := by
    intro tokens lexeme htokens hlexeme due opened
    obtain ⟨t, rfl, rfl⟩ := List.map_eq_singleton_iff.mp htokens
    obtain ⟨alone, hpass⟩ := exists_pass_unit hlexeme due opened
    exact ⟨t, alone, by rw [passAll_singleton, hpass]⟩
  induction h with
  | number | string | truth | name =>
    intro tokens htokens
    exact unit htokens nofun
  | prefixed op h ih =>
    intro tokens htokens due opened
    obtain ⟨t, rest, rfl, ht, hrest⟩ := List.map_eq_cons_iff.mp htokens
    obtain ⟨last, alone, hpass⟩ := ih hrest (.prefixed op t) opened
    refine ⟨last, alone, ?_⟩
    rw [passAll_cons, pass_prefixOp (kind_of_symbol ht), Option.bind_some, hpass]
  | group h ih =>
    intro tokens htokens due opened
    obtain ⟨t, rest, rfl, ht, hrest⟩ := List.map_eq_cons_iff.mp htokens
    obtain ⟨inner, closing, rfl, hinner, hclosing⟩ := List.map_eq_append_iff.mp hrest
    obtain ⟨u, rfl, hu⟩ := List.map_eq_singleton_iff.mp hclosing
    obtain ⟨last, alone, hpass⟩ := ih hinner (.paren t) (t :: opened)
    refine ⟨u, false, ?_⟩
    rw [passAll_cons, pass_paren (kind_of_symbol ht), Option.bind_some, passAll_append, hpass,
      Option.bind_some, passAll_singleton, pass_closing (kind_of_symbol hu)]
  | operand h ih => exact ih
  | @binary l op first second left right hop hl hr ihl ihr =>
    intro tokens htokens due opened
    obtain ⟨before, behind, rfl, hbefore, hbehind⟩ := List.map_eq_append_iff.mp htokens
    obtain ⟨t, after, rfl, ht, hafter⟩ := List.map_eq_cons_iff.mp hbehind
    obtain ⟨last, alone, hleft⟩ := ihl hbefore due opened
    obtain ⟨last', alone', hright⟩ := ihr hafter (.operator t) opened
    refine ⟨last', alone', ?_⟩
    rw [passAll_append, hleft, Option.bind_some, passAll_cons, pass_binary (kind_of_symbol ht),
      Option.bind_some, hright]

end Situation

end FormulaSyntax
