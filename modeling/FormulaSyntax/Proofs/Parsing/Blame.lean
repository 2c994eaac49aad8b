import FormulaSyntax.Proofs.Parsing.Origins
import FormulaSyntax.Proofs.Parsing.Situations

/-!
# What a syntax error blames

**The error of a parse is the one that the situation of its last token calls for**
(`parse_error_eq_blame`). The parser itself looks at no earlier token when it fails. It looks at
the top of its pending stack, which has been reduced, folded and had groups taken out of it, and
at the innermost group on it. That these are the token right in front and the innermost open
parenthesis is the invariant of this file.

`At` ties a parser to the situation of its current token, and to how often it has asked: for two
tokens more than it has passed. `Fits` ties the stacks to that situation. Where a unit is due the
top of the stack is the token in front (`Tops`), and in both places the groups on the stack are
the open parentheses (`Groups`); reducing and folding take no group away. Behind a name there is
more to know, that it makes up no reserved form with the current token (`Unreserved`): this is
found out as soon as the name is taken.
-/

set_option autoImplicit false

namespace FormulaSyntax

/-! ## Groups on the stack -/

namespace Stacks

/-- The places of the parentheses on the pending stack, innermost first. -/
def groups (s : Stacks) : List Span := s.pending.filterMap Pending.groupSpan?

theorem groups_reducing {incoming : Option BinaryOp} {operands operands' : List Expr}
    {pending pending' : List Pending}
    (h : reducing incoming operands pending = .ok (operands', pending')) :
    pending'.filterMap Pending.groupSpan? = pending.filterMap Pending.groupSpan? := by
  fun_induction reducing incoming operands pending with
  | case1 top span pending _ right left rest ih => exact ih h
  | case2 => cases h
  | case3 | case4 =>
    obtain ⟨-, rfl⟩ := Prod.mk.inj (Except.ok.inj h)
    rfl

theorem groups_folding {operands operands' : List Expr} {pending pending' : List Pending}
    (h : folding operands pending = .ok (operands', pending')) :
    pending'.filterMap Pending.groupSpan? = pending.filterMap Pending.groupSpan? := by
  fun_induction folding operands pending with
  | case1 op span pending operand rest ih => exact ih h
  | case2 => cases h
  | case3 =>
    obtain ⟨-, rfl⟩ := Prod.mk.inj (Except.ok.inj h)
    rfl

variable {s s' : Stacks}

/-- Binary operators leave the stack, groups stay, and so does their count. -/
theorem groups_reduce {incoming : Option BinaryOp} (h : s.reduce incoming = .ok s') :
    s'.groups = s.groups ∧ s'.openGroups = s.openGroups := by
  unfold reduce at h
  split at h
  · next hr =>
    obtain rfl := Except.ok.inj h
    exact ⟨groups_reducing hr, rfl⟩
  · exact nomatch h

theorem groups_foldPrefixes (h : s.foldPrefixes = .ok s') :
    s'.groups = s.groups ∧ s'.openGroups = s.openGroups := by
  unfold foldPrefixes at h
  split at h
  · next hf =>
    obtain rfl := Except.ok.inj h
    exact ⟨groups_folding hf, rfl⟩
  · exact nomatch h

/-- Closing a group takes the innermost one off. What was pending inside it has been reduced
    before. -/
theorem groups_closeGroup (h : s.closeGroup = .ok s') :
    s'.groups = s.groups.tail ∧ s'.openGroups = s.openGroups - 1 := by
  unfold closeGroup at h
  split at h
  · next hr =>
    obtain ⟨hgroups, hopen⟩ := groups_reduce hr
    obtain rfl := Except.ok.inj h
    exact ⟨by rw [← hgroups]; rfl, by rw [← hopen]⟩
  · exact nomatch h
  · exact nomatch h

/-- The parser looks for the innermost group on its stack. It is the first of the groups, which
    are the open parentheses. -/
theorem innermostGroup?_eq (s : Stacks) : s.innermostGroup? = s.groups.head? :=
  (List.head?_filterMap ..).symm

end Stacks

namespace Parser

open Situation

variable {all : List Token} {s : Situation} {due : Due} {last : Token} {alone : Bool}
  {opened : List Token} {p q : Parser} {held : Stacks} {t : Token}

/-! ## The situation of the current token -/

/-- Of all tokens the parser has passed some, and stands in the situation behind these. -/
inductive At (all : List Token) : Situation → Parser → Prop
  | intro {s : Situation} (taken rest : List Token) : taken ++ rest = all →
      behind taken = some s → At all s (onTokens rest (taken.length + 2))

/-- A failure at a token whose situation calls for it. -/
def Accuses (all : List Token) (e : ParseError) (q : Parser) : Prop :=
  e.isInternal = false → ∃ s t, At all s q ∧ q.current = some t ∧ e = s.blame t

theorem Accuses.of_fault (fault : Fault) (q : Parser) : Accuses all (.internal fault) q := nofun

theorem At.accuses (hp : At all s p) (hc : p.current = some t) : Accuses all (s.blame t) p :=
  fun _ => ⟨s, t, hp, hc, rfl⟩

/-- A parser that is primed has asked twice and passed nothing. -/
theorem at_start (all : List Token) : At all start (onTokens all 2) :=
  .intro [] all rfl rfl

/-- The tokens never run out, if they cannot all be passed. -/
theorem At.exists_current (hp : At all s p) (hall : behind all = none) :
    ∃ t, p.current = some t := by
  cases hp with
  | intro taken rest heq hbehind =>
    cases rest with
    | cons t rest => exact ⟨t, rfl⟩
    | nil =>
      rw [← heq, List.append_nil, hbehind] at hall
      exact nomatch hall

/-- The parser passes a token when its situation does, and both are then behind that token. -/
theorem At.shift {s' : Situation} (hp : At all s p) (hc : p.current = some t)
    (ht : s.pass t = some s') :
    Ensures shift p (fun _ q => q.current = p.next ∧ At all s' q) (Accuses all) := by
  cases hp with
  | intro taken rest heq hbehind =>
    cases rest with
    | nil => exact nomatch hc
    | cons u rest =>
      obtain rfl : u = t := Option.some.inj hc
      rw [Ensures, shift_onTokens]
      have hat : At all s' (onTokens rest ((taken ++ [u]).length + 2)) := by
        refine .intro (taken ++ [u]) rest (by rw [← heq, List.append_assoc]; rfl) ?_
        rw [behind_append_singleton hbehind, ht]
      rw [List.length_append] at hat
      exact ⟨by cases rest <;> rfl, hat⟩

theorem At.bump {s' : Situation} (hp : At all s p) (hc : p.current = some t)
    (ht : s.pass t = some s') :
    Ensures bump p (fun u q => u = t ∧ q.current = p.next ∧ At all s' q) (Accuses all) :=
  .bump_of_shift hc (hp.shift hc ht)

/-- A fault blames nothing, so it need not be ruled out here. -/
theorem ensures_orFault {α : Type} (r : Except Fault α) (p : Parser) :
    Ensures (orFault r) p (fun a q => r = .ok a ∧ q = p) (Accuses all) := by
  cases r with
  | ok a => exact ⟨rfl, rfl⟩
  | error fault => exact .of_fault fault p

/-! ## The stacks -/

/-- The groups on the stack are the open parentheses. -/
def Groups (opened : List Token) (held : Stacks) : Prop :=
  held.groups = opened.map Token.span ∧ held.openGroups = opened.length

/-- Where a unit is due, the top of the pending stack is the token in front. -/
def Tops : Due → List Pending → Prop
  | .item, pending | .equals _, pending => pending = []
  | .operator t, pending => ∃ op below, pending = .binary op t.span :: below
  | .prefixed op t, pending => ∃ below, pending = .prefixed op t.span :: below
  | .paren t, pending => ∃ below, pending = .group t.span :: below

/-- The last token makes up no reserved form with the current one. -/
def Unreserved (last : Token) (p : Parser) : Prop :=
  last.kind = .name → reservedForm? last p = none

/-- Behind a unit of an expression, with these parentheses open. -/
def BehindUnit (all opened : List Token) (p : Parser) : Prop :=
  ∃ last alone, At all (.operator last alone opened) p ∧ Unreserved last p

/-- The stacks fit the situation of the current token. -/
def Fits (all : List Token) (held : Stacks) : Place → Parser → Prop
  | .operand, p => ∃ due opened, At all (.operand due opened) p ∧ Tops due held.pending ∧
      Groups opened held
  | .operator, p => ∃ opened, BehindUnit all opened p ∧ Groups opened held

/-- The current token begins no reserved form, where a unit is due. -/
def BlamesDue (p : Parser) : Prop :=
  ∀ t, p.current = some t → ∀ due, blameOperand due t = due.blame t

/-- How an expression goes on or ends. -/
def OutcomeFits (all : List Token) : Outcome → Parser → Prop
  | .next held place, p => Fits all held place p
  | .done (some _), p => BehindUnit all [] p
  | .done none, p => BlamesDue p

theorem Groups.empty : Groups [] .empty := ⟨rfl, rfl⟩

theorem Groups.of_eq {held' : Stacks} (h : Groups opened held)
    (heq : held'.groups = held.groups ∧ held'.openGroups = held.openGroups) :
    Groups opened held' := ⟨heq.1.trans h.1, heq.2.trans h.2⟩

theorem Groups.push_paren (h : Groups opened held) (t : Token) :
    Groups (t :: opened) (held.push (.group t.span)) :=
  ⟨congrArg (t.span :: ·) h.1, congrArg (· + 1) h.2⟩

theorem Groups.push {entry : Pending} (h : Groups opened held)
    (hentry : entry.groupSpan? = none) : Groups opened (held.push entry) := by
  refine h.of_eq ⟨?_, ?_⟩
  · rw [Stacks.groups, Stacks.push, List.filterMap_cons_none hentry]
    rfl
  · simp only [Stacks.push, hentry, Option.isSome_none, Bool.false_eq_true, if_false, Nat.add_zero]

/-- A count of open groups above zero is backed by an open parenthesis, which is the one to
    blame. -/
theorem Groups.exists_cons (h : Groups opened held) (hopen : 0 < held.openGroups) :
    ∃ paren outer, opened = paren :: outer := by
  rw [h.2] at hopen
  exact List.exists_cons_of_length_pos hopen

/-! ## Blame where a unit is due, and behind one -/

/-- **Here the stack is read as the token in front**: the operator or parenthesis on its top,
    whose operand is missing, is the last token that was passed. -/
theorem Tops.blame (h : Tops due held.pending) {top : Pending} {below : List Pending}
    (hpending : held.pending = top :: below) (t : Token) : due.blame t = top.missingOperand := by
  rw [hpending] at h
  cases due with
  | item | equals => exact nomatch h
  | operator =>
    obtain ⟨op, below', h⟩ := h
    rw [(List.cons.inj h).1]
    rfl
  | prefixed | paren =>
    obtain ⟨below', h⟩ := h
    rw [(List.cons.inj h).1]
    rfl

theorem blamesDue_of_symbol {sym : Symbol} (hc : p.current = some t) (hk : t.kind = .symbol sym)
    (hs : reservedOperand? sym = none) : BlamesDue p := by
  intro u hu due
  obtain rfl : t = u := Option.some.inj (hc.symm.trans hu)
  unfold blameOperand
  rw [hk]
  cases sym <;> first | rfl | exact nomatch hs

theorem blame_of_reservedOperand {sym : Symbol} {what : String} (hk : t.kind = .symbol sym)
    (hs : reservedOperand? sym = some what) (due : Due) :
    blameOperand due t = .syntactic (.unsupported what) t.span := by
  unfold blameOperand
  rw [hk]
  unfold reservedOperand? at hs
  split at hs <;> cases hs <;> rfl

/-- The two forms that are reserved behind a name, and no others. -/
theorem reservedBehindName?_eq_some {kind : TokenKind} {what : String}
    (h : reservedBehindName? kind = some what) :
    (kind = .symbol .leftParen ∧ what = "function call") ∨
      (kind = .symbol .dot ∧ what = "member access") := by
  unfold reservedBehindName? at h
  split at h
  · exact .inl ⟨rfl, (Option.some.inj h).symm⟩
  · exact .inr ⟨rfl, (Option.some.inj h).symm⟩
  · exact nomatch h

/-- A name makes up a reserved form with the token behind it only in the two cases in which the
    situation calls for it. -/
theorem blame_of_reservedForm {error : ParseError} (hk : last.kind = .name)
    (h : reservedForm? last p = some error) (opened : List Token) :
    ∃ t, p.current = some t ∧ error = blameOperator last opened t := by
  unfold reservedForm? at h
  split at h
  · next t hc =>
    obtain ⟨what, hwhat, rfl⟩ := Option.map_eq_some_iff.mp h
    refine ⟨t, hc, ?_⟩
    rcases reservedBehindName?_eq_some hwhat with ⟨ht, rfl⟩ | ⟨ht, rfl⟩
    · simp only [blameOperator, hk, ht]
    · simp only [blameOperator, hk, ht]
  · exact nomatch h

/-- Behind a unit that makes up no reserved form, the current token is a stray one. -/
theorem blame_of_unreserved (h : Unreserved last p) (hc : p.current = some t)
    (opened : List Token) : blameOperator last opened t = stranded opened t := by
  unfold blameOperator
  split
  · next hk ht =>
    have hnone := h hk
    simp [reservedForm?, hc, ht, reservedBehindName?] at hnone
  · next hk ht =>
    have hnone := h hk
    simp [reservedForm?, hc, ht, reservedBehindName?] at hnone
  · rfl

/-! ## Taking tokens -/

/-- How a unit that is a token of its own is read. -/
def PrimaryFits (all opened : List Token) (p : Parser) : Option Expr → Parser → Prop
  | some _, q => BehindUnit all opened q
  | none, q => q = p ∧ BlamesDue p

theorem At.takeLiteral (hp : At all (.operand due opened) p) (hc : p.current = some t)
    (hk : ∀ s, t.kind ≠ .symbol s) (hname : t.kind ≠ .name) :
    Ensures takeLiteral p (fun _ => BehindUnit all opened) (Accuses all) := by
  obtain ⟨alone, hpass⟩ := exists_pass_unit hk due opened
  refine (hp.bump hc hpass).bind ?_
  rintro u q ⟨rfl, -, hq⟩
  refine (ensures_orFault (literalOf u) q).bind ?_
  rintro value r ⟨-, rfl⟩
  exact .pure ⟨u, alone, hq, fun h => absurd h hname⟩

/-- Whether the name makes up a reserved form with the token behind it is settled as soon as it is
    taken. -/
theorem At.takeName (hp : At all (.operand due opened) p) (hc : p.current = some t)
    (hk : t.kind = .name) :
    Ensures takeName p (fun _ => BehindUnit all opened) (Accuses all) := by
  refine (hp.bump hc (pass_name hk due opened)).bind ?_
  rintro u q ⟨rfl, -, hq⟩
  have hrefuse : Ensures (refuseReserved u) q
      (fun _ r => r = q ∧ reservedForm? u q = none) (Accuses all) := by
    cases hr : reservedForm? u q with
    | none => simp only [Ensures, refuseReserved, hr, and_self]
    | some error =>
      obtain ⟨v, hv, rfl⟩ := blame_of_reservedForm hk hr opened
      have haccuses := hq.accuses hv
      rw [Situation.blame] at haccuses
      simpa only [Ensures, refuseReserved, hr] using haccuses
  refine hrefuse.bind ?_
  rintro _ r ⟨rfl, hnone⟩
  refine (ensures_orFault (textOf u) r).bind ?_
  rintro text r' ⟨-, rfl⟩
  exact .pure ⟨u, due.isItem, hq, fun _ => hnone⟩

theorem At.takeOpening (hp : At all (.operand due opened) p) (hgroups : Groups opened held)
    {kind : TokenKind} {entry : Span → Pending} (hkind : p.currentKind? = some kind)
    (hentry : opening? kind = some entry) :
    Ensures (takeOpening held entry) p (OutcomeFits all) (Accuses all) := by
  obtain ⟨t, hc, rfl⟩ := current_of_kind hkind
  rcases opening?_eq_some hentry with ⟨op, hk, rfl⟩ | ⟨hk, rfl⟩
  · refine (hp.bump hc (pass_prefixOp hk due opened)).bind ?_
    rintro u q ⟨rfl, -, hq⟩
    exact .pure ⟨_, opened, hq, ⟨_, rfl⟩, hgroups.push rfl⟩
  · refine (hp.bump hc (pass_paren hk due opened)).bind ?_
    rintro u q ⟨rfl, -, hq⟩
    exact .pure ⟨_, _, hq, ⟨_, rfl⟩, hgroups.push_paren u⟩

/-- The closing parenthesis closes the innermost open one, on the stack and in the situation
    alike. -/
theorem BehindUnit.closeGroup (h : BehindUnit all opened p) (hgroups : Groups opened held)
    {kind : TokenKind} (hkind : p.currentKind? = some kind) (hcloses : closes held kind = true) :
    Ensures (closeGroup held) p (OutcomeFits all) (Accuses all) := by
  obtain ⟨last, alone, hp, -⟩ := h
  obtain ⟨t, hc, rfl⟩ := current_of_kind hkind
  obtain ⟨hopen, hk⟩ : 0 < held.openGroups ∧ t.kind = .symbol .rightParen := by
    simpa [closes] using hcloses
  obtain ⟨paren, outer, rfl⟩ := hgroups.exists_cons hopen
  refine (hp.shift hc (pass_closing hk last alone paren outer)).bind ?_
  rintro _ q ⟨-, hq⟩
  refine (ensures_orFault held.closeGroup q).bind ?_
  rintro closed r ⟨hclosed, rfl⟩
  obtain ⟨hspans, hcount⟩ := Stacks.groups_closeGroup hclosed
  have hname : t.kind ≠ .name := by simp [hk]
  refine .pure ⟨outer, ⟨t, false, hq, fun h => absurd h hname⟩, ?_, ?_⟩
  · rw [hspans, hgroups.1]
    rfl
  · rw [hcount, hgroups.2]
    rfl

/-- Behind an operator an operand is due, and the operator is on top of the stack. What it has
    reduced below is of no concern. -/
theorem BehindUnit.takeOperator (h : BehindUnit all opened p) (hgroups : Groups opened held)
    {kind : TokenKind} (hkind : p.currentKind? = some kind) {op : BinaryOp}
    (hop : BinaryOp.ofKind? kind = some op) :
    Ensures (takeOperator held) p (OutcomeFits all) (Accuses all) := by
  obtain ⟨last, alone, hp, -⟩ := h
  obtain ⟨t, hc, rfl⟩ := current_of_kind hkind
  refine (hp.bump hc (pass_binary (ofKind?_eq_some hop) last alone opened)).bind ?_
  rintro u q ⟨rfl, -, hq⟩
  refine (ensures_orFault (BinaryOp.ofKind u.kind) q).bind ?_
  rintro op' r ⟨-, rfl⟩
  refine (ensures_orFault (held.reduce (some op')) r).bind ?_
  rintro reduced r' ⟨hreduced, rfl⟩
  have hreducedGroups := hgroups.of_eq (Stacks.groups_reduce hreduced)
  exact .pure ⟨_, opened, hq, ⟨op', _, rfl⟩, hreducedGroups.push rfl⟩

/-! ## Between items -/

/-- In front of an item, or behind one that ends here. -/
def Between (all : List Token) (p : Parser) : Prop :=
  At all start p ∨ BehindUnit all [] p ∧ strayToken? p = none

theorem Between.exists_newLine (h : Between all p) (hk : t.kind = .symbol .newLine) :
    ∃ s, At all s p ∧ s.pass t = some start := by
  rcases h with hp | ⟨⟨last, alone, hp, -⟩, -⟩
  · exact ⟨_, hp, pass_newLine_start hk⟩
  · exact ⟨_, hp, pass_newLine hk last alone⟩

/-- Behind a line break a line begins, and behind the last one what begins is no further break. -/
theorem Between.skipNewLines (h : Between all p) :
    Ensures skipNewLines p
      (fun _ q => Between all q ∧ q.currentKind? ≠ some (.symbol .newLine)) (Accuses all) := by
  unfold Ensures
  fun_induction Parser.skipNewLines p with
  | case1 p hc => exact ⟨h, by simp [currentKind?, hc]⟩
  | case2 p t hc hk passed q hs ih =>
    obtain ⟨s, hp, hpass⟩ := h.exists_newLine hk
    exact ih (.inl ((hp.shift hc hpass).of_ok hs).2)
  | case3 p t hc hk e q hs =>
    obtain ⟨s, hp, hpass⟩ := h.exists_newLine hk
    exact (hp.shift hc hpass).of_error hs
  | case4 p t hc hk => exact ⟨h, by simpa [currentKind?, hc] using hk⟩

theorem BehindUnit.refuseStray (h : BehindUnit all [] p) :
    Ensures refuseStray p (fun _ q => Between all q) (Accuses all) := by
  cases hs : strayToken? p with
  | none => simpa only [Ensures, Parser.refuseStray, hs] using .inr ⟨h, hs⟩
  | some error =>
    simp only [Ensures, Parser.refuseStray, hs]
    unfold strayToken? at hs
    split at hs
    · next t hc =>
      split at hs
      · cases hs
      · obtain rfl := Option.some.inj hs
        obtain ⟨last, alone, hp, hlast⟩ := h
        have haccuses := hp.accuses hc
        rw [Situation.blame, blame_of_unreserved hlast hc, stranded] at haccuses
        exact haccuses
    · cases hs

/-! ## Steps

From here on all tokens together cannot be passed, so there is always a current one. -/

section Steps

variable (hall : behind all = none)

include hall

theorem At.primary (hp : At all (.operand due opened) p) :
    Ensures primary p (PrimaryFits all opened p) (Accuses all) := by
  obtain ⟨t, hc⟩ := hp.exists_current hall
  have hprimary : Ensures (primaryAt t) p (PrimaryFits all opened p) (Accuses all) := by
    rcases hkind : t.kind with sym | _ | _ | _ | value
    case symbol =>
      simp only [primaryAt, hkind]
      cases hs : reservedOperand? sym with
      | none => exact .pure ⟨rfl, blamesDue_of_symbol hc hkind hs⟩
      | some what =>
        have haccuses := hp.accuses hc
        rw [Situation.blame, blame_of_reservedOperand hkind hs] at haccuses
        exact .throw haccuses
    case name =>
      simp only [primaryAt, hkind]
      exact .map_some (hp.takeName hc hkind)
    all_goals
      simp only [primaryAt, hkind]
      exact .map_some (hp.takeLiteral hc (by simp [hkind]) (by simp [hkind]))
  simpa only [Ensures, Parser.primary, hc] using hprimary

theorem At.takePrimary (hp : At all (.operand due opened) p) (htop : Tops due held.pending)
    (hgroups : Groups opened held) :
    Ensures (takePrimary held) p (OutcomeFits all) (Accuses all) := by
  refine (hp.primary hall).bind ?_
  intro r q hr
  cases r with
  | some e => exact .pure ⟨opened, hr, hgroups⟩
  | none =>
    obtain ⟨rfl, hdue⟩ := hr
    cases hpending : held.pending with
    | nil => exact .pure hdue
    | cons top below =>
      obtain ⟨t, hc⟩ := hp.exists_current hall
      have haccuses := hp.accuses hc
      rw [Situation.blame, hdue t hc, htop.blame hpending] at haccuses
      exact .throw haccuses

theorem fits_operandStep (h : Fits all held .operand p) :
    Ensures (operandStep held) p (OutcomeFits all) (Accuses all) := by
  obtain ⟨due, opened, hp, htop, hgroups⟩ := h
  cases ho : p.currentKind?.bind opening? with
  | none => simpa only [Ensures, operandStep, ho] using hp.takePrimary hall htop hgroups
  | some entry =>
    obtain ⟨kind, hkind, hentry⟩ := Option.bind_eq_some_iff.mp ho
    simpa only [Ensures, operandStep, ho] using hp.takeOpening hgroups hkind hentry

/-- The innermost group is blamed as the innermost open parenthesis. -/
theorem BehindUnit.unclosedGroup (h : BehindUnit all opened p) (hgroups : Groups opened held)
    (hopen : 0 < held.openGroups) : Accuses all (unclosedGroup held p) p := by
  obtain ⟨last, alone, hp, hlast⟩ := h
  obtain ⟨t, hc⟩ := hp.exists_current hall
  obtain ⟨paren, outer, rfl⟩ := hgroups.exists_cons hopen
  have hinnermost : held.innermostGroup? = some paren.span := by
    rw [Stacks.innermostGroup?_eq, hgroups.1]
    rfl
  have haccuses := hp.accuses hc
  rw [Situation.blame, blame_of_unreserved hlast hc, stranded] at haccuses
  unfold Parser.unclosedGroup
  rw [hinnermost, hc]
  cases hend : t.isEndOfFile with
  | true => simpa [hend] using haccuses
  | false => simpa [hend] using haccuses

theorem BehindUnit.finish (h : BehindUnit all opened p) (hgroups : Groups opened held) :
    Ensures (finish held) p (OutcomeFits all) (Accuses all) := by
  have hrefuse : Ensures (refuseOpenGroup held) p (fun _ q => q = p ∧ opened = [])
      (Accuses all) := by
    by_cases hopen : 0 < held.openGroups
    · simpa only [Ensures, refuseOpenGroup, if_pos hopen] using h.unclosedGroup hall hgroups hopen
    · have hempty : opened = [] := by
        rw [hgroups.2] at hopen
        exact List.eq_nil_of_length_eq_zero (Nat.eq_zero_of_not_pos hopen)
      simpa only [Ensures, refuseOpenGroup, if_neg hopen] using ⟨trivial, hempty⟩
  refine hrefuse.bind ?_
  rintro _ q ⟨rfl, rfl⟩
  refine (ensures_orFault held.result q).bind ?_
  rintro e r ⟨-, rfl⟩
  exact .pure h

theorem fits_operatorStep (h : Fits all held .operator p) :
    Ensures (operatorStep held) p (OutcomeFits all) (Accuses all) := by
  obtain ⟨opened, hunit, hgroups⟩ := h
  refine (ensures_orFault held.foldPrefixes p).bind ?_
  rintro folded q ⟨hfolded, rfl⟩
  replace hgroups := hgroups.of_eq (Stacks.groups_foldPrefixes hfolded)
  obtain ⟨t, hc⟩ : ∃ t, q.current = some t := by
    obtain ⟨last, alone, hq, -⟩ := hunit
    exact hq.exists_current hall
  have hkind : q.currentKind? = some t.kind := by rw [currentKind?, hc, Option.map_some]
  cases hcloses : closes folded t.kind with
  | true =>
    simpa only [Ensures, behindOperand_of_closes hkind hcloses]
      using hunit.closeGroup hgroups hkind hcloses
  | false =>
    cases hop : BinaryOp.ofKind? t.kind with
    | some op =>
      simpa only [Ensures, behindOperand_of_operator hkind hcloses hop]
        using hunit.takeOperator hgroups hkind hop
    | none =>
      simpa only [Ensures, behindOperand_of_other hkind hcloses hop]
        using hunit.finish hall hgroups

/-- **A step keeps the stacks fit**, and blames what its situation calls for. -/
theorem fits_step {place : Place} (h : Fits all held place p) :
    Ensures (step held place) p (OutcomeFits all) (Accuses all) := by
  cases place with
  | operand => exact fits_operandStep hall h
  | operator => exact fits_operatorStep hall h

/-- The induction is on the tokens ahead; a step that goes on leaves stacks that fit. -/
theorem fits_run {p : Parser} {held : Stacks} {place : Place} (h : Fits all held place p) :
    Ensures (run held place) p (fun r => OutcomeFits all (.done r)) (Accuses all) := by
  have hstep := fits_step hall h
  cases hs : step held place p with
  | error e q => simpa only [Ensures, run_of_error hs] using hstep.of_error hs
  | ok o q =>
    have ho := hstep.of_ok hs
    cases o with
    | done result => simpa only [Ensures, run_of_done hs] using ho
    | next held' place' => simpa only [Ensures, run_of_next hs] using fits_run ho
termination_by p.upcoming.length
decreasing_by
  obtain ⟨t, ht⟩ := stepTakes hs
  rw [ht]
  exact Nat.lt_succ_self _

/-! ## Items -/

/-- An expression that finds nothing to begin with has passed nothing. -/
theorem At.expression (hp : At all (.operand due []) p) (htop : Tops due []) :
    Ensures expression p (fun r q => OutcomeFits all (.done r) q ∧ (r = none → q = p))
      (Accuses all) := by
  have hfits : Fits all .empty .operand p := ⟨due, [], hp, htop, .empty⟩
  have hrun := fits_run hall hfits
  have hkeeps := ensures_expression p
  cases hx : Parser.expression p with
  | error e q => simpa only [Ensures, hx] using hrun.of_error hx
  | ok r q =>
    simp only [Ensures, hx]
    refine ⟨hrun.of_ok hx, ?_⟩
    rintro rfl
    exact (hkeeps.of_ok hx).1

theorem At.required (hp : At all start p) :
    Ensures required p (fun _ => BehindUnit all []) (Accuses all) := by
  rw [required_eq]
  refine (hp.expression hall rfl).bind ?_
  rintro (_ | e) q ⟨hq, hnone⟩
  · obtain rfl := hnone rfl
    obtain ⟨t, hc⟩ := hp.exists_current hall
    have haccuses := hp.accuses hc
    rw [start, Situation.blame, hq t hc, Due.blame] at haccuses
    simpa only [Ensures, orUnexpected, unexpected, hc] using haccuses
  · exact .pure hq

theorem At.assigned (hp : At all (.operand (.equals t) []) p) :
    Ensures (assigned t) p (fun _ => BehindUnit all []) (Accuses all) := by
  rw [assigned_eq]
  refine (hp.expression hall rfl).bind ?_
  rintro (_ | e) q ⟨hq, hnone⟩
  · obtain rfl := hnone rfl
    obtain ⟨u, hc⟩ := hp.exists_current hall
    have haccuses := hp.accuses hc
    rw [Situation.blame, hq u hc, Due.blame] at haccuses
    exact .throw haccuses
  · exact .pure hq

theorem At.assignment (hp : At all start p) (h : p.atAssignment = true) :
    Ensures assignment p (fun _ => BehindUnit all []) (Accuses all) := by
  obtain ⟨name, equals, text, hc, hnext, hname, hequals⟩ := tokens_of_atAssignment h
  have hk : name.kind = .name := by rw [Token.kind, hname, Lexeme.kind]
  refine (hp.bump hc (pass_name hk .item [])).bind ?_
  rintro u q ⟨rfl, hcurrent, hq⟩
  refine (hq.bump (hcurrent.trans hnext) (pass_equals (kind_of_symbol hequals) u)).bind ?_
  rintro v q' ⟨rfl, -, hq'⟩
  refine (ensures_orFault (textOf u) q').bind ?_
  rintro target r ⟨-, rfl⟩
  exact (hq'.assigned hall).bind fun _ _ h => .pure h

/-- Either kind of item begins where a line does. -/
theorem At.item (hp : At all start p) :
    Ensures item p (fun _ => BehindUnit all []) (Accuses all) := by
  by_cases h : p.atAssignment = true
  · simpa only [Ensures, Parser.item, if_pos h] using hp.assignment hall h
  · simpa only [Ensures, Parser.item, if_neg h] using hp.required hall

/-- With neither a line break nor the end in front, an item begins. -/
theorem Between.at_start (h : Between all p) (hk : p.currentKind? ≠ some (.symbol .newLine))
    (hend : p.atEnd ≠ true) : At all start p := by
  rcases h with hp | ⟨⟨last, alone, hp, -⟩, hstray⟩
  · exact hp
  · obtain ⟨t, hc⟩ := hp.exists_current hall
    have hstop : ¬(t.isEndOfFile = true ∨ t.kind = .symbol .newLine) := by
      rintro (hstop | hbreak)
      · exact hend (by simpa only [atEnd, hc] using hstop)
      · exact hk (by rw [currentKind?, hc, Option.map_some, hbreak])
    simp [strayToken?, hc, if_neg hstop] at hstray

theorem Between.nextItem (h : Between all p) :
    Ensures nextItem p (fun r q => r.isSome → BehindUnit all [] q) (Accuses all) := by
  refine h.skipNewLines.bind ?_
  rintro _ q ⟨hq, hk⟩
  by_cases hend : q.atEnd = true
  · simp [Ensures, itemUnlessEnd, if_pos hend]
  · have hitem : Ensures (some <$> Parser.item) q (fun r q => r.isSome → BehindUnit all [] q)
        (Accuses all) :=
      .map_some (((hq.at_start hall hk hend).item hall).mono fun _ _ h _ => h)
    simpa only [Ensures, itemUnlessEnd, if_neg hend] using hitem

theorem Between.allItems {p : Parser} (h : Between all p) :
    Ensures allItems p (fun _ _ => True) (Accuses all) := by
  rw [allItems_eq]
  refine (h.nextItem hall).bind_run ?_
  intro r q hn hq
  cases r with
  | none => exact .pure trivial
  | some e =>
    refine (hq rfl).refuseStray.bind_run ?_
    intro _ q' hstray hq'
    have hlt : q'.upcoming.length < p.upcoming.length := by
      unfold Parser.refuseStray at hstray
      split at hstray
      · cases hstray
      · obtain ⟨-, rfl⟩ := EStateM.Result.ok.inj hstray
        exact length_upcoming_nextItem_lt hn
    exact hq'.allItems.bind fun _ _ _ => .pure trivial
termination_by p.upcoming.length

/-- A parse over a list of tokens is the reading of all items by a parser that is primed. -/
theorem accuses_of_parse {e : ParseError} (h : (ofTokens all).parse.result = .error e) :
    Accuses all e (ofTokens all).parse.parser := by
  have hitems := (Between.allItems hall (.inl (at_start all)))
  cases hr : Parser.allItems (onTokens all 2) with
  | ok es q =>
    obtain ⟨hresult, -⟩ := parse_of_allItems (r := .ok es) hr
    rw [hresult] at h
    exact nomatch h
  | error e' q =>
    obtain ⟨hresult, hparser⟩ := parse_of_allItems (r := .error e') hr
    rw [hresult] at h
    obtain rfl := Except.error.inj h
    rw [hparser]
    exact hitems.of_error hr

end Steps

/-! ## Main result -/

/-- **A syntax error is the one that the situation of the token calls for where the parser stops.**
    That token is the last but one of those that it has asked for, and the token that the situation
    has in front is the one that stands there. -/
theorem parse_error_eq_blame {tokens : List Token} {stop : Token} (hstop : stop.kind = .endOfFile)
    {e : ParseError} (h : (ofTokens (tokens ++ [stop])).parse.result = .error e) :
    ∃ taken t rest s, tokens ++ [stop] = taken ++ t :: rest ∧
      (ofTokens (tokens ++ [stop])).parse.parser.source.asked = taken.length + 2 ∧
      behind taken = some s ∧ (∀ p, s.previous? = some p → taken.getLast? = some p) ∧
      e = s.blame t := by
  have hall : behind (tokens ++ [stop]) = none := by
    rw [behind, passAll_append]
    cases start.passAll tokens with
    | none => rfl
    | some s => rw [Option.bind_some, passAll_singleton, pass_endOfFile s hstop]
  obtain ⟨s, t, hat, hc, he⟩ := accuses_of_parse hall h (parse_faultless h)
  generalize (ofTokens (tokens ++ [stop])).parse.parser = q at hat hc
  cases hat with
  | intro taken rest heq hbehind =>
    cases rest with
    | nil => cases hc
    | cons u rest =>
      obtain rfl : u = t := Option.some.inj hc
      exact ⟨taken, u, rest, s, heq.symm, rfl, hbehind,
        fun p hp => getLast?_of_previous? hbehind hp, he⟩

/-- The tokens of `(a) - (-b`, with a line break behind. -/
def halfClosed : List Token :=
  [.symbol .leftParen ⟨0, 1⟩, .name "a" ⟨1, 2⟩, .symbol .rightParen ⟨2, 3⟩,
    .symbol .minus ⟨4, 5⟩, .symbol .leftParen ⟨6, 7⟩, .symbol .minus ⟨7, 8⟩, .name "b" ⟨8, 9⟩,
    .symbol .newLine ⟨9, 10⟩]

/-- The second parenthesis is blamed, up to the line break. -/
theorem blame_halfClosed :
    (ofTokens (halfClosed ++ [.endOfFile])).parse.result
        = .error (.syntactic .unclosedParen ⟨6, 10⟩) ∧
      ∃ taken t rest s, halfClosed ++ [.endOfFile] = taken ++ t :: rest ∧
        (ofTokens (halfClosed ++ [.endOfFile])).parse.parser.source.asked = taken.length + 2 ∧
        behind taken = some s ∧ (∀ p, s.previous? = some p → taken.getLast? = some p) ∧
        .syntactic .unclosedParen ⟨6, 10⟩ = s.blame t := by
  have hresult : (ofTokens (halfClosed ++ [.endOfFile])).parse.result
      = .error (.syntactic .unclosedParen ⟨6, 10⟩) := by decide +kernel
  exact ⟨hresult, parse_error_eq_blame rfl hresult⟩

end Parser

end FormulaSyntax
