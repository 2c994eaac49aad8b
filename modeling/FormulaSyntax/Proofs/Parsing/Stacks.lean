import FormulaSyntax.Formula.Stacks
import FormulaSyntax.Proofs.Parsing.Grammar

/-!
# What the stacks stand for

The invariant of the two stacks. At any time the lexemes read so far, `read`, are the beginning
of a phrase, and the stacks record how far its derivation has got:

* where an operand is due, `Awaits l operands pending read`: with one more phrase of layer `l`
  the innermost phrase begun would be complete;
* behind an operand, `Holds r read s`: the operand on top has the tree of a phrase of layer `r`,
  and what is below it awaits a phrase that may be of that layer.

Everything that is known about the order of the pending stack follows from the layer in
`Awaits`. A binary operator is put only where its own layer is allowed, so between two
parentheses precedences strictly increase; and only a unit may follow a prefix operator, so no
binary operator lies directly above one.

The operations of `Stacks` keep the invariant, and **none of them can fail under it**.
-/

set_option autoImplicit false

namespace FormulaSyntax

/-! ## The invariant -/

/-- The number of parentheses on a pending stack. -/
def groupsIn : List Pending → Nat
  | [] => 0
  | .group _ :: rest => groupsIn rest + 1
  | .binary _ _ :: rest | .prefixed _ _ :: rest => groupsIn rest

/-- With `read` read, a phrase of the layer is due. -/
inductive Awaits : Layer → List Expr → List Pending → List Lexeme → Prop
  | start : Awaits .equality [] [] []
  | group {l : Layer} {operands : List Expr} {pending : List Pending} {read : List Lexeme}
      (span : Span) : Awaits l operands pending read →
        Awaits .equality operands (.group span :: pending) (read ++ [.symbol .leftParen])
  | prefixed {l : Layer} {operands : List Expr} {pending : List Pending} {read : List Lexeme}
      (op : PrefixOp) (span : Span) : Awaits l operands pending read →
        Awaits .unit operands (.prefixed op span :: pending) (read ++ [.symbol op.symbol])
  | binary {l : Layer} {operands : List Expr} {pending : List Pending}
      {read phrase : List Lexeme} {left : Expr} (op : BinaryOp) (span : Span) :
      Awaits l operands pending read → l.rank ≤ op.precedence →
        Derives (.ofOperator op) phrase left →
          Awaits (Layer.ofOperator op).tighter (left :: operands) (.binary op span :: pending)
            (read ++ (phrase ++ [.symbol op.symbol]))

/-- Stacks where an operand is due. -/
inductive Opens (read : List Lexeme) : Stacks → Prop
  | intro {l : Layer} {operands : List Expr} {pending : List Pending} :
      Awaits l operands pending read → Opens read ⟨operands, pending, groupsIn pending⟩

/-- Stacks behind an operand, which is a phrase of the layer `r`. -/
inductive Holds (r : Layer) : List Lexeme → Stacks → Prop
  | intro {l : Layer} {operands : List Expr} {pending : List Pending}
      {before phrase : List Lexeme} {top : Expr} :
      Awaits l operands pending before → l.rank ≤ r.rank → Derives r phrase top →
        Holds r (before ++ phrase) ⟨top :: operands, pending, groupsIn pending⟩

/-- No prefix operator is on top: those in front of the operand are applied. -/
def Folded (pending : List Pending) : Prop :=
  ∀ op span rest, pending ≠ .prefixed op span :: rest

/-! ## Reading the invariant off the pending stack -/

theorem Awaits.layer_of_prefixed {l : Layer} {operands : List Expr} {op : PrefixOp} {span : Span}
    {pending : List Pending} {read : List Lexeme}
    (h : Awaits l operands (.prefixed op span :: pending) read) : l = .unit := by
  cases h; rfl

/-- Where a phrase looser than a unit is due, no prefix operator is on top. -/
theorem Awaits.folded {l : Layer} {operands : List Expr} {pending : List Pending}
    {read : List Lexeme} (h : Awaits l operands pending read) (hl : l ≠ .unit) :
    Folded pending := by
  intro op span rest heq
  subst heq
  exact hl h.layer_of_prefixed

/-- Where a phrase of the loosest layer is due, nothing is waiting but parentheses. -/
theorem Awaits.equality_cases {l : Layer} {operands : List Expr} {pending : List Pending}
    {read : List Lexeme} (h : Awaits l operands pending read)
    (hl : l.rank ≤ Layer.equality.rank) :
    (operands = [] ∧ pending = [] ∧ read = []) ∨
      ∃ m span below before, pending = .group span :: below ∧
        read = before ++ [.symbol .leftParen] ∧ Awaits m operands below before := by
  cases h with
  | start => exact Or.inl ⟨rfl, rfl, rfl⟩
  | group span h => exact Or.inr ⟨_, span, _, _, rfl, rfl, h⟩
  | prefixed op span h => exact absurd hl (by decide)
  | binary op span h hle hd =>
    rw [Layer.rank_tighter_ofOperator] at hl
    cases op <;> exact absurd hl (by decide)

theorem Awaits.read_eq_nil_iff {l : Layer} {operands : List Expr} {pending : List Pending}
    {read : List Lexeme} (h : Awaits l operands pending read) : read = [] ↔ pending = [] := by
  cases h <;> simp

theorem exists_innermost {pending : List Pending} (h : 0 < groupsIn pending) :
    ∃ span, pending.findSome? Pending.groupSpan? = some span := by
  induction pending with
  | nil => exact absurd h (by simp [groupsIn])
  | cons p rest ih =>
    cases p with
    | group span => exact ⟨span, rfl⟩
    | binary op span => exact ih h
    | prefixed op span => exact ih h

/-! ## Pushing -/

theorem Opens.empty : Opens [] Stacks.empty := .intro .start

theorem Opens.pushGroup {read : List Lexeme} {s : Stacks} (h : Opens read s) (span : Span) :
    Opens (read ++ [.symbol .leftParen]) (s.push (.group span)) := by
  cases h with
  | intro h => exact .intro (.group span h)

theorem Opens.pushPrefix {read : List Lexeme} {s : Stacks} (h : Opens read s) (op : PrefixOp)
    (span : Span) : Opens (read ++ [.symbol op.symbol]) (s.push (.prefixed op span)) := by
  cases h with
  | intro h => exact .intro (.prefixed op span h)

theorem Opens.pushOperand {read phrase : List Lexeme} {s : Stacks} {e : Expr} (h : Opens read s)
    (hd : Derives .unit phrase e) : Holds .unit (read ++ phrase) (s.pushOperand e) := by
  cases h with
  | @intro l _ _ h => exact .intro h l.rank_le_rank_unit hd

theorem Holds.pushBinary {read : List Lexeme} {s : Stacks} {op : BinaryOp}
    (h : Holds (.ofOperator op) read s) (span : Span) :
    Opens (read ++ [.symbol op.symbol]) (s.push (.binary op span)) := by
  cases h with
  | intro h hle hd =>
    rw [List.append_assoc]
    rw [Layer.rank_ofOperator] at hle
    exact .intro (.binary op span h hle hd)

/-! ## Applying prefix operators -/

/-- Folding turns the operand on top and the prefix operators in front of it into one unit. -/
theorem folding_of_awaits {l : Layer} {operands : List Expr} {pending : List Pending}
    {before : List Lexeme} (h : Awaits l operands pending before) :
    ∀ {phrase : List Lexeme} {top : Expr}, Derives .unit phrase top →
      ∃ l' pending' before' phrase' top',
        Stacks.folding (top :: operands) pending = .ok (top' :: operands, pending') ∧
        Awaits l' operands pending' before' ∧ Derives .unit phrase' top' ∧
        before' ++ phrase' = before ++ phrase ∧ groupsIn pending' = groupsIn pending ∧
        Folded pending' := by
  induction h with
  | start =>
    intro phrase top hd
    exact ⟨_, _, _, phrase, top, rfl, .start, hd, rfl, rfl, nofun⟩
  | group span h _ =>
    intro phrase top hd
    exact ⟨_, _, _, phrase, top, rfl, .group span h, hd, rfl, rfl, nofun⟩
  | binary op span h hle hleft _ =>
    intro phrase top hd
    exact ⟨_, _, _, phrase, top, rfl, .binary op span h hle hleft, hd, rfl, rfl, nofun⟩
  | prefixed op span h ih =>
    intro phrase top hd
    -- The operator and the phrase are a unit again, so the same holds one further down.
    obtain ⟨l', pending', before', phrase', top', hf, ha, hd', hread, hgroups, hfolded⟩ :=
      ih (.prefixed op hd)
    refine ⟨l', pending', before', phrase', top', ?_, ha, hd', ?_, hgroups, hfolded⟩
    · rw [Stacks.folding]
      exact hf
    · rw [hread, List.append_assoc]
      rfl

theorem Holds.foldPrefixes {read : List Lexeme} {s : Stacks} (h : Holds .unit read s) :
    ∃ s', s.foldPrefixes = .ok s' ∧ Holds .unit read s' ∧ Folded s'.pending := by
  cases h with
  | @intro _ operands _ _ _ _ ha _ hd =>
    obtain ⟨l', pending', before', phrase', top', hf, ha', hd', hread, hgroups, hfolded⟩ :=
      folding_of_awaits ha hd
    refine ⟨⟨top' :: operands, pending', groupsIn pending'⟩, ?_, ?_, hfolded⟩
    · rw [Stacks.foldPrefixes]
      simp only [hf, hgroups]
    · rw [← hread]
      exact .intro ha' l'.rank_le_rank_unit hd'

/-! ## Combining by binary operators -/

/-- The layer that an incoming operator asks of its left operand. With no operator incoming all
    that is left is one phrase of the loosest layer. -/
def Layer.ofIncoming : Option BinaryOp → Layer
  | some op => ofOperator op
  | none => equality

theorem yieldsTo_eq (top : BinaryOp) (incoming : Option BinaryOp) :
    Stacks.yieldsTo top incoming = decide ((Layer.ofIncoming incoming).rank ≤ top.precedence) := by
  cases incoming with
  | some op => simp [Stacks.yieldsTo, Layer.ofIncoming]
  | none => cases top <;> rfl

/-- **Reducing makes the operand on top a phrase of the layer asked for.** The induction is on
what lies below: each operator that yields takes the phrase on top for its right operand, which
it can be because the phrase is tighter than the operator, and the result is a phrase of the
operator's layer. -/
theorem reducing_of_awaits (incoming : Option BinaryOp) {l : Layer} {operands : List Expr}
    {pending : List Pending} {before : List Lexeme} (h : Awaits l operands pending before) :
    ∀ {r : Layer} {phrase : List Lexeme} {top : Expr}, Derives r phrase top → l.rank ≤ r.rank →
      (Layer.ofIncoming incoming).rank ≤ r.rank → Folded pending →
      ∃ l' operands' pending' before' phrase' top',
        Stacks.reducing incoming (top :: operands) pending = .ok (top' :: operands', pending') ∧
        Awaits l' operands' pending' before' ∧ l'.rank ≤ (Layer.ofIncoming incoming).rank ∧
        Derives (Layer.ofIncoming incoming) phrase' top' ∧
        before' ++ phrase' = before ++ phrase ∧ groupsIn pending' = groupsIn pending := by
  have loosest : Layer.equality.rank ≤ (Layer.ofIncoming incoming).rank := by
    cases Layer.ofIncoming incoming <;> decide
  induction h with
  | start =>
    intro r phrase top hd _ hr _
    exact ⟨_, _, _, _, phrase, top, rfl, .start, loosest, hd.loosen hr, rfl, rfl⟩
  | group span h _ =>
    intro r phrase top hd _ hr _
    exact ⟨_, _, _, _, phrase, top, rfl, .group span h, loosest, hd.loosen hr, rfl, rfl⟩
  | prefixed op span h _ =>
    intro r phrase top _ _ _ hfolded
    exact absurd rfl (hfolded op span _)
  | @binary m below pending before first left op span h hle hleft ih =>
    intro r phrase top hd hl hr _
    -- Either the operator yields, and the induction goes on below it with the operation on top;
    -- or it stays, and then the phrase asked for is tighter than the operator.
    by_cases hyield : (Layer.ofIncoming incoming).rank ≤ op.precedence
    · have hright : Derives (Layer.ofOperator op).tighter phrase top := hd.loosen hl
      have hm : m ≠ .unit := by
        rintro rfl
        exact absurd hle (Nat.not_le_of_lt (Layer.precedence_lt_rank_unit op))
      rw [← Layer.rank_ofOperator op] at hle hyield
      obtain ⟨l', operands', pending', before', phrase', top', hred, ha, hl', hd', hread, hg⟩ :=
        ih (hleft.combine hright) hle hyield (h.folded hm)
      refine ⟨l', operands', pending', before', phrase', top', ?_, ha, hl', hd', ?_, hg⟩
      · rw [Layer.rank_ofOperator] at hyield
        rw [Stacks.reducing, yieldsTo_eq, decide_eq_true hyield, if_pos rfl]
        exact hred
      · rw [hread]
        simp only [List.append_assoc, List.cons_append, List.nil_append]
    · refine ⟨_, _, _, _, phrase, top, ?_, .binary op span h hle hleft, ?_, hd.loosen hr, rfl, rfl⟩
      · rw [Stacks.reducing, yieldsTo_eq, decide_eq_false hyield, if_neg Bool.false_ne_true]
      · rw [Layer.rank_tighter_ofOperator]
        omega

theorem Holds.reduce {read : List Lexeme} {s : Stacks} (h : Holds .unit read s)
    (hf : Folded s.pending) (incoming : Option BinaryOp) :
    ∃ s', s.reduce incoming = .ok s' ∧ s'.openGroups = s.openGroups ∧
      Holds (Layer.ofIncoming incoming) read s' := by
  cases h with
  | intro ha hle hd =>
    obtain ⟨l', operands', pending', before', phrase', top', hred, ha', hl', hd', hread, hg⟩ :=
      reducing_of_awaits incoming ha hd hle (Layer.rank_le_rank_unit _) hf
    refine ⟨⟨top' :: operands', pending', groupsIn pending'⟩, ?_, hg, ?_⟩
    · rw [Stacks.reduce]
      simp only [hred, hg]
    · rw [← hread]
      exact .intro ha' hl' hd'

/-! ## Closing parentheses, and the end -/

/-- A parenthesis that is open can be closed, and what it holds is a unit. -/
theorem Holds.closeGroup {read : List Lexeme} {s : Stacks} (h : Holds .unit read s)
    (hf : Folded s.pending) (hopen : 0 < s.openGroups) :
    ∃ s', s.closeGroup = .ok s' ∧ Holds .unit (read ++ [.symbol .rightParen]) s' := by
  obtain ⟨s₁, hred, hg, h₁⟩ := h.reduce hf none
  cases h₁ with
  | @intro l operands pending before phrase top ha hl hd =>
    -- Behind the reduction a parenthesis is on top, or nothing: all operators have yielded.
    rcases ha.equality_cases hl with ⟨-, rfl, -⟩ | ⟨m, span, below, outer, rfl, rfl, ha'⟩
    · rw [← hg] at hopen
      exact absurd hopen (by simp [groupsIn])
    · refine ⟨⟨top :: operands, below, groupsIn below⟩, ?_, ?_⟩
      · rw [Stacks.closeGroup, hred]
        rfl
      · have hunit := Holds.intro ha' m.rank_le_rank_unit (Derives.group hd)
        simpa only [List.append_assoc, List.cons_append, List.nil_append] using hunit

/-- With no parenthesis open all that was read is one expression. -/
theorem Holds.result {read : List Lexeme} {s : Stacks} (h : Holds .unit read s)
    (hf : Folded s.pending) (hclosed : s.openGroups = 0) :
    ∃ e, s.result = .ok e ∧ Derives .equality read e := by
  obtain ⟨s₁, hred, hg, h₁⟩ := h.reduce hf none
  cases h₁ with
  | @intro l operands pending before phrase top ha hl hd =>
    rcases ha.equality_cases hl with ⟨rfl, rfl, rfl⟩ | ⟨m, span, below, outer, rfl, rfl, -⟩
    · refine ⟨top, ?_, hd⟩
      rw [Stacks.result, hred]
    · rw [← hg] at hclosed
      exact absurd hclosed (by simp [groupsIn])

end FormulaSyntax
