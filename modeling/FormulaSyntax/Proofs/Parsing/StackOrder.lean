import FormulaSyntax.Proofs.Parsing.Steps
import Mathlib.Data.List.Perm.Subperm

/-!
# The order of the stacks of an expression

Wherever the reader of an expression stands, its stacks have an order that can be read off without
the lexemes that were read (`Reaches.inOrder`). Between two parentheses the pending operators are,
from the bottom, binary ones of strictly increasing precedence and then prefix operators; behind an
operand there are no prefix operators on top. There are only four precedences, so **however long an
expression is, the stacks grow with the number of open parentheses alone**.

`Reaches` are the states of the loop of `run`. Their stacks await a phrase of some layer (`Awaits`),
and that layer bounds what is in the innermost parenthesis: binary operators bind less tightly than
the layer, and prefix operators are there only if it is that of units.
-/

set_option autoImplicit false

namespace FormulaSyntax

namespace Pending

def isGroup : Pending → Bool
  | group _ => true
  | binary _ _ | prefixed _ _ => false

def isBinary : Pending → Bool
  | binary _ _ => true
  | prefixed _ _ | group _ => false

def isPrefixed : Pending → Bool
  | prefixed _ _ => true
  | binary _ _ | group _ => false

/-- Whether an entry may stand above another one, with no parenthesis between them. -/
def Above : Pending → Pending → Prop
  | binary upper _, binary lower _ => lower.precedence < upper.precedence
  | binary _ _, prefixed _ _ => False
  | _, _ => True

/-- Whether an entry may be in the innermost parenthesis where a phrase of a layer is due. -/
def FitsBelow (l : Layer) : Pending → Prop
  | binary op _ => op.precedence < l.rank
  | prefixed _ _ => l = .unit
  | group _ => True

end Pending

/-- Entries in a row with no parenthesis among them. -/
structure Stretch (stretch pending : List Pending) : Prop where
  isInfix : stretch <:+: pending
  isGroup_eq : ∀ entry ∈ stretch, entry.isGroup = false

/-! ## The pending stack -/

section Order

variable {l : Layer} {operands : List Expr} {pending stretch : List Pending} {read : List Lexeme}
  {entry : Pending}

theorem groupsIn_eq_countP (pending : List Pending) :
    groupsIn pending = pending.countP Pending.isGroup := by
  induction pending with
  | nil => rfl
  | cons entry rest ih =>
    cases entry with
    | binary | prefixed | group => simpa [groupsIn, List.countP_cons, Pending.isGroup] using ih

theorem Awaits.length_operands (h : Awaits l operands pending read) :
    operands.length = pending.countP Pending.isBinary := by
  induction h with
  | start => rfl
  | group _ _ ih | prefixed _ _ _ ih | binary _ _ _ _ _ ih =>
    simpa [List.countP_cons, Pending.isBinary] using ih

/-- Every parenthesis takes the layer back to the loosest one, and every operand makes it tighter.
    -/
theorem Awaits.length_operands_le (h : Awaits l operands pending read) :
    operands.length + Layer.equality.rank ≤ 4 * groupsIn pending + l.rank := by
  have hranks : Layer.unit.rank = Layer.equality.rank + 4 := rfl
  induction h with
  | start => exact Nat.le_refl _
  | @group l _ _ _ span _ ih | @prefixed l _ _ _ op span _ ih =>
    have hl := l.rank_le_rank_unit
    rw [groupsIn]
    omega
  | binary op span _ hle _ ih =>
    rw [groupsIn, Layer.rank_tighter_ofOperator, List.length_cons]
    omega

theorem pairwise_cons_of_stretch
    (hpairs : ∀ stretch, Stretch stretch pending → stretch.Pairwise Pending.Above)
    (habove : ∀ stretch, Stretch stretch pending → stretch <+: pending →
      ∀ lower ∈ stretch, entry.Above lower) :
    ∀ stretch, Stretch stretch (entry :: pending) → stretch.Pairwise Pending.Above := by
  rintro stretch ⟨hwithin, hfree⟩
  rcases List.infix_cons_iff.mp hwithin with hfront | hwithin
  · cases stretch with
    | nil => exact .nil
    | cons upper stretch =>
      obtain ⟨rfl, hrest⟩ := List.cons_prefix_cons.mp hfront
      have hstretch : Stretch stretch pending :=
        ⟨hrest.isInfix, fun e he => hfree e (List.mem_cons_of_mem _ he)⟩
      exact List.pairwise_cons.mpr ⟨habove stretch hstretch hrest, hpairs stretch hstretch⟩
  · exact hpairs stretch ⟨hwithin, hfree⟩

theorem fitsBelow_cons {l' : Layer} (hentry : entry.FitsBelow l')
    (hfits : ∀ stretch, Stretch stretch pending → stretch <+: pending →
      ∀ lower ∈ stretch, lower.FitsBelow l') :
    ∀ stretch, Stretch stretch (entry :: pending) → stretch <+: entry :: pending →
      ∀ lower ∈ stretch, lower.FitsBelow l' := by
  rintro stretch ⟨-, hfree⟩ hfront
  cases stretch with
  | nil => exact nofun
  | cons upper stretch =>
    obtain ⟨rfl, hrest⟩ := List.cons_prefix_cons.mp hfront
    have hstretch : Stretch stretch pending :=
      ⟨hrest.isInfix, fun e he => hfree e (List.mem_cons_of_mem _ he)⟩
    exact List.forall_mem_cons.mpr ⟨hentry, hfits stretch hstretch hrest⟩

/-- **The order of the pending stack**, by induction on what it awaits: the layer that is due bounds
    the entries of the innermost parenthesis, so the next entry may stand above them. -/
theorem Awaits.order (h : Awaits l operands pending read) :
    (∀ stretch, Stretch stretch pending → stretch.Pairwise Pending.Above) ∧
      ∀ stretch, Stretch stretch pending → stretch <+: pending →
        ∀ entry ∈ stretch, entry.FitsBelow l := by
  induction h with
  | start =>
    refine ⟨?_, ?_⟩
    · rintro stretch ⟨hwithin, -⟩
      rw [List.infix_nil.mp hwithin]
      exact .nil
    · rintro stretch - hfront
      rw [List.prefix_nil.mp hfront]
      exact nofun
  | group span h ih =>
    refine ⟨pairwise_cons_of_stretch ih.1 fun _ _ _ _ _ => trivial, ?_⟩
    rintro stretch ⟨-, hfree⟩ hfront
    cases stretch with
    | nil => exact nofun
    | cons entry stretch =>
      obtain ⟨rfl, -⟩ := List.cons_prefix_cons.mp hfront
      exact nomatch hfree _ List.mem_cons_self
  | prefixed op span h ih =>
    refine ⟨pairwise_cons_of_stretch ih.1 fun _ _ _ _ _ => trivial,
      fitsBelow_cons rfl fun stretch _ _ lower _ => ?_⟩
    cases lower with
    | binary lower _ => exact Layer.precedence_lt_rank_unit lower
    | prefixed => rfl
    | group => trivial
  | @binary m operands pending read phrase left op span h hle hd ih =>
    -- What is in the innermost parenthesis binds less tightly than the operator, or not at all.
    have hlower : ∀ stretch, Stretch stretch pending → stretch <+: pending →
        ∀ lower ∈ stretch, ∃ other place, lower = .binary other place ∧
          other.precedence < op.precedence := by
      intro stretch hstretch hfront lower hmem
      have hfits := ih.2 stretch hstretch hfront lower hmem
      cases lower with
      | binary other place => exact ⟨other, place, rfl, Nat.lt_of_lt_of_le hfits hle⟩
      | prefixed =>
        obtain rfl : m = .unit := hfits
        exact absurd hle (Nat.not_le_of_lt (Layer.precedence_lt_rank_unit op))
      | group => exact nomatch hstretch.isGroup_eq _ hmem
    refine ⟨pairwise_cons_of_stretch ih.1 ?_, fitsBelow_cons ?_ ?_⟩
    · intro stretch hstretch hfront lower hmem
      obtain ⟨other, place, rfl, hlt⟩ := hlower stretch hstretch hfront lower hmem
      exact hlt
    · show op.precedence < _
      rw [Layer.rank_tighter_ofOperator]
      exact Nat.lt_succ_self _
    · intro stretch hstretch hfront lower hmem
      obtain ⟨other, place, rfl, hlt⟩ := hlower stretch hstretch hfront lower hmem
      show other.precedence < _
      rw [Layer.rank_tighter_ofOperator]
      exact Nat.lt_succ_of_lt hlt

/-- How tightly a binary operator binds that is pending. -/
def Pending.precedence? : Pending → Option Nat
  | binary op _ => some op.precedence
  | prefixed _ _ | group _ => none

/-- There are four precedences, so entries in order have four binary operators at most. -/
theorem countP_isBinary_le (h : stretch.Pairwise Pending.Above) :
    stretch.countP Pending.isBinary ≤ 4 := by
  have hcount : stretch.countP Pending.isBinary
      = (stretch.filterMap Pending.precedence?).length := by
    rw [List.length_filterMap_eq_countP]
    refine List.countP_congr fun entry _ => ?_
    cases entry <;> simp [Pending.isBinary, Pending.precedence?]
  have hnodup : (stretch.filterMap Pending.precedence?).Nodup := by
    refine List.Pairwise.filterMap Pending.precedence? ?_ h
    intro upper lower habove m hm n hn
    cases upper <;> cases lower <;> cases hm <;> cases hn
    exact Nat.ne_of_gt habove
  have hsubset : stretch.filterMap Pending.precedence? ⊆ [3, 4, 5, 6] := by
    intro n hn
    obtain ⟨entry, -, hentry⟩ := List.mem_filterMap.mp hn
    cases entry with
    | binary op =>
      obtain rfl := Option.some.inj hentry
      cases op <;> decide
    | prefixed | group => exact nomatch hentry
  rw [hcount]
  exact (List.subperm_of_subset hnodup hsubset).length_le

/-- With no prefix operator on top there is none in the innermost parenthesis. -/
theorem Folded.isPrefixed_eq (hfolded : Folded pending)
    (hpairs : ∀ stretch, Stretch stretch pending → stretch.Pairwise Pending.Above)
    (hstretch : Stretch stretch pending) (hfront : stretch <+: pending) :
    ∀ entry ∈ stretch, entry.isPrefixed = false := by
  have hordered := hpairs stretch hstretch
  cases stretch with
  | nil => exact nofun
  | cons upper lower =>
    obtain ⟨below, rfl⟩ := hfront
    cases upper with
    | prefixed op span => exact absurd rfl (hfolded op span _)
    | group => exact nomatch hstretch.isGroup_eq _ List.mem_cons_self
    | binary op span =>
      refine List.forall_mem_cons.mpr ⟨rfl, fun entry hmem => ?_⟩
      have habove := (List.pairwise_cons.mp hordered).1 entry hmem
      cases entry with
      | prefixed => exact habove.elim
      | binary | group => rfl

end Order

namespace Parser

/-! ## The states of the loop -/

/-- The states of the loop that reads an expression, from a parser on. -/
inductive Reaches (p : Parser) : Stacks → Place → Parser → Prop
  | start : Reaches p .empty .operand p
  | step {held held' : Stacks} {place place' : Place} {q q' : Parser} :
      Reaches p held place q → Parser.step held place q = .ok (.next held' place') q' →
        Reaches p held' place' q'

/-- The stacks in view of the current token: behind an operand the prefix operators are applied
    first. -/
def settled (held : Stacks) : Place → Except Fault Stacks
  | .operand => .ok held
  | .operator => held.foldPrefixes

/-- The order of the stacks at a place of the loop. -/
structure InOrder (place : Place) (s : Stacks) : Prop where
  groups_eq : s.pending.countP Pending.isGroup = s.openGroups
  operands_eq : s.operands.length
    = s.pending.countP Pending.isBinary + (if place = .operator then 1 else 0)
  /-- The stack is given top first, so in a row the earlier entries are above the later ones. -/
  above : ∀ stretch, Stretch stretch s.pending → stretch.Pairwise Pending.Above
  folded : place = .operator → ∀ stretch, Stretch stretch s.pending → stretch <+: s.pending →
    ∀ entry ∈ stretch, entry.isPrefixed = false
  binary_le : ∀ stretch, Stretch stretch s.pending → stretch.countP Pending.isBinary ≤ 4
  operands_le : s.operands.length ≤ 4 * (s.openGroups + 1) + 1

variable {p q : Parser} {held : Stacks} {place : Place} {read : List Lexeme}

/-- From each of its states the loop comes to the same expression. -/
theorem Reaches.expression_eq (h : Reaches p held place q) :
    expression p = run held place q := by
  induction h with
  | start => rfl
  | step _ hstep ih => rw [ih, run_of_next hstep]

theorem Reaches.exists_stands (h : Reaches p held place q) : ∃ read, Stands read held place := by
  induction h with
  | start => exact ⟨[], Opens.empty⟩
  | @step held held' place place' q q' _ hstep ih =>
    obtain ⟨read, hstands⟩ := ih
    obtain ⟨t, -, hnext⟩ := (ensures_step hstands q).of_ok hstep
    exact ⟨_, hnext⟩

theorem Opens.ordered (h : Opens read held) : InOrder .operand held := by
  cases h with
  | @intro l operands pending ha =>
    have hpairs := ha.order.1
    have hlength := ha.length_operands_le
    have hl := l.rank_le_rank_unit
    have hranks : Layer.unit.rank = Layer.equality.rank + 4 := rfl
    refine ⟨(groupsIn_eq_countP pending).symm, ha.length_operands, hpairs, nofun,
      fun stretch hstretch => countP_isBinary_le (hpairs stretch hstretch), ?_⟩
    show operands.length ≤ 4 * (groupsIn pending + 1) + 1
    omega

theorem Holds.ordered (h : Holds .unit read held) (hfolded : Folded held.pending) :
    InOrder .operator held := by
  cases h with
  | @intro l operands pending _ _ top ha _ _ =>
    have hpairs := ha.order.1
    have hlength := ha.length_operands_le
    have hl := l.rank_le_rank_unit
    have hranks : Layer.unit.rank = Layer.equality.rank + 4 := rfl
    refine ⟨(groupsIn_eq_countP pending).symm, congrArg (· + 1) ha.length_operands, hpairs,
      fun _ stretch hstretch hfront => hfolded.isPrefixed_eq hpairs hstretch hfront,
      fun stretch hstretch => countP_isBinary_le (hpairs stretch hstretch), ?_⟩
    show operands.length + 1 ≤ 4 * (groupsIn pending + 1) + 1
    omega

/-! ## Main result -/

/-- **The stacks are in order in every state of the loop**, on every feed. Behind an operand the
    prefix operators can be applied, and the stacks are in order then. -/
theorem Reaches.inOrder (h : Reaches p held place q) :
    ∃ s, settled held place = .ok s ∧ InOrder place s := by
  obtain ⟨read, hstands⟩ := h.exists_stands
  cases place with
  | operand => exact ⟨held, rfl, Opens.ordered hstands⟩
  | operator =>
    obtain ⟨s, hfold, hholds, hfolded⟩ := Holds.foldPrefixes hstands
    exact ⟨s, hfold, Holds.ordered hholds hfolded⟩

/-- Behind `a == (b + -c` the sum is pending in the parenthesis, and the comparison below it. -/
theorem Reaches.inOrder_of_comparison :
    let behind : List Token := [.symbol .leftParen ⟨5, 6⟩, .name "b" ⟨6, 7⟩, .symbol .plus ⟨8, 9⟩,
      .symbol .minus ⟨10, 11⟩, .name "c" ⟨11, 12⟩]
    let p : Parser := ⟨.ofList (behind.map Except.ok), some (.name "a" ⟨0, 1⟩),
      some (.symbol .equal ⟨2, 4⟩), true⟩
    let held : Stacks := ⟨[.ident ⟨"c"⟩, .ident ⟨"b"⟩, .ident ⟨"a"⟩],
      [.prefixed .negate ⟨10, 11⟩, .binary .add ⟨8, 9⟩, .group ⟨5, 6⟩, .binary .equal ⟨2, 4⟩], 1⟩
    ∃ q, Reaches p held .operator q ∧
      ∃ s, settled held .operator = .ok s ∧ InOrder .operator s := by
  intro behind p held
  have hreaches : Reaches p held .operator ⟨⟨[], 7⟩, none, none, true⟩ :=
    .step (.step (.step (.step (.step (.step (.step .start rfl) rfl) rfl) rfl) rfl) rfl) rfl
  exact ⟨_, hreaches, hreaches.inOrder⟩

end Parser

end FormulaSyntax
