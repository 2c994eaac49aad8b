import FormulaSyntax.Formula.Stacks

/-!
# Places moved on

A text may stand further on in a source, behind other text. Then all its tokens are moved on by
the same number of characters, and so are the errors found in it.

`move d` is defined for everything that carries a place. The stacks of an expression carry places
but never look at them, so every operation on stacks commutes with `move`.
-/

set_option autoImplicit false

namespace FormulaSyntax

/-! ## Spans, tokens and errors -/

namespace Span

/-- The span that lies a number of characters further on. -/
def move (d : Nat) (s : Span) : Span := ⟨s.start + d, s.stop + d⟩

@[simp] theorem move_zero (s : Span) : s.move 0 = s := rfl

/-- Both ends move alike, so the smallest span over two moves with them. -/
theorem move_merge (d : Nat) (a b : Span) : (a.merge b).move d = (a.move d).merge (b.move d) := by
  simp only [move, merge, Nat.add_min_add_right, Nat.add_max_add_right]

end Span

namespace Token

def move (d : Nat) (t : Token) : Token := { t with span := t.span.move d }

@[simp] theorem move_zero (t : Token) : t.move 0 = t := rfl

theorem map_move_zero (tokens : List Token) : tokens.map (move 0) = tokens := List.map_id tokens

@[simp] theorem lexeme_move (d : Nat) (t : Token) : (t.move d).lexeme = t.lexeme := rfl

@[simp] theorem span_move (d : Nat) (t : Token) : (t.move d).span = t.span.move d := rfl

@[simp] theorem kind_move (d : Nat) (t : Token) : (t.move d).kind = t.kind := rfl

@[simp] theorem isEndOfFile_move (d : Nat) (t : Token) :
    (t.move d).isEndOfFile = t.isEndOfFile := rfl

end Token

def LexError.move (d : Nat) (e : LexError) : LexError := { e with span := e.span.move d }

/-- The same failure, found further on. A fault has no place. -/
def ParseError.move (d : Nat) : ParseError → ParseError
  | lexical error => lexical (error.move d)
  | syntactic cause span => syntactic cause (span.move d)
  | internal fault => internal fault

@[simp] theorem ParseError.move_zero (e : ParseError) : e.move 0 = e := by
  cases e <;> rfl

/-! ## Stacks -/

namespace Pending

def move (d : Nat) : Pending → Pending
  | binary op span => binary op (span.move d)
  | prefixed op span => prefixed op (span.move d)
  | group span => group (span.move d)

/-- The error for a pending entry has its place from the entry. -/
theorem missingOperand_move (d : Nat) (p : Pending) :
    (p.move d).missingOperand = p.missingOperand.move d := by
  cases p <;> rfl

theorem groupSpan?_move (d : Nat) (p : Pending) :
    (p.move d).groupSpan? = p.groupSpan?.map (Span.move d) := by
  cases p <;> rfl

end Pending

namespace Stacks

def move (d : Nat) (s : Stacks) : Stacks := { s with pending := s.pending.map (Pending.move d) }

@[simp] theorem move_zero (s : Stacks) : s.move 0 = s := by
  have hmove : Pending.move 0 = id := by
    funext p
    cases p <;> rfl
  simp only [move, hmove, List.map_id]

@[simp] theorem openGroups_move (d : Nat) (s : Stacks) : (s.move d).openGroups = s.openGroups := rfl

theorem push_move (d : Nat) (s : Stacks) (p : Pending) :
    (s.move d).push (p.move d) = (s.push p).move d := by
  simp only [push, move, Pending.groupSpan?_move, Option.isSome_map, List.map_cons]

/-- Which entries are reduced is a matter of operators and operands. The places of those that stay
    are moved. -/
theorem reducing_move (d : Nat) (incoming : Option BinaryOp) (operands : List Expr)
    (pending : List Pending) :
    reducing incoming operands (pending.map (Pending.move d))
      = (reducing incoming operands pending).map fun s => (s.1, s.2.map (Pending.move d)) := by
  induction pending generalizing operands with
  | nil => cases operands <;> rfl
  | cons p pending ih =>
    cases p with
    | group | prefixed => cases operands <;> rfl
    | binary top span =>
      simp only [List.map_cons, Pending.move, reducing]
      cases Stacks.yieldsTo top incoming with
      | false => rfl
      | true =>
        match operands with
        | [] | [_] => rfl
        | right :: left :: rest => exact ih (.binary left top right :: rest)

theorem folding_move (d : Nat) (operands : List Expr) (pending : List Pending) :
    folding operands (pending.map (Pending.move d))
      = (folding operands pending).map fun s => (s.1, s.2.map (Pending.move d)) := by
  induction pending generalizing operands with
  | nil => cases operands <;> rfl
  | cons p pending ih =>
    cases p with
    | group | binary => cases operands <;> rfl
    | prefixed op span =>
      match operands with
      | [] => rfl
      | operand :: rest => exact ih (.prefixed op operand :: rest)

theorem reduce_move (d : Nat) (s : Stacks) (incoming : Option BinaryOp) :
    (s.move d).reduce incoming = (s.reduce incoming).map (move d) := by
  simp only [reduce, move, reducing_move]
  cases reducing incoming s.operands s.pending <;> rfl

theorem foldPrefixes_move (d : Nat) (s : Stacks) :
    (s.move d).foldPrefixes = s.foldPrefixes.map (move d) := by
  simp only [foldPrefixes, move, folding_move]
  cases folding s.operands s.pending <;> rfl

theorem closeGroup_move (d : Nat) (s : Stacks) :
    (s.move d).closeGroup = s.closeGroup.map (move d) := by
  simp only [closeGroup, reduce_move]
  match s.reduce none with
  | .error _ => rfl
  | .ok ⟨_, [], _⟩ => rfl
  | .ok ⟨_, .group _ :: _, _⟩ => rfl
  | .ok ⟨_, .binary _ _ :: _, _⟩ => rfl
  | .ok ⟨_, .prefixed _ _ :: _, _⟩ => rfl

/-- An expression has no places in it. -/
theorem result_move (d : Nat) (s : Stacks) : (s.move d).result = s.result := by
  simp only [result, reduce_move]
  match s.reduce none with
  | .error _ => rfl
  | .ok ⟨[], _, _⟩ => rfl
  | .ok ⟨[_], [], _⟩ => rfl
  | .ok ⟨[_], _ :: _, _⟩ => rfl
  | .ok ⟨_ :: _ :: _, _, _⟩ => rfl

/-- The one place that is ever looked at, for the error of an open group, is moved with the
    others. -/
theorem innermostGroup?_move (d : Nat) (s : Stacks) :
    (s.move d).innermostGroup? = s.innermostGroup?.map (Span.move d) := by
  simp only [innermostGroup?, move]
  induction s.pending with
  | nil => rfl
  | cons p pending ih =>
    cases p with
    | group => rfl
    | binary | prefixed => exact ih

end Stacks

end FormulaSyntax
