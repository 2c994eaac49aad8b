import FormulaSyntax.Proofs.Parsing.ItemReading

/-!
# Where errors come from

The parser makes up no places. A lexical error that it returns is one that its feed gave, and the
place of a syntax error is that of a token of the feed, or the smallest span that covers two of
them. **The end marker is never one of these tokens**, although its own place, empty and at the
start, would go unnoticed in a span that covers two (`origin_of_parse`).

The invariant is `DrawsOn`: all that the parser holds was given by its feed. Every part of the
parser keeps it, failing or not, so it holds in every further parse as well. The pending stack
keeps the places of tokens that were taken (`Known`); where an error site looks at the current
token, it has found out before that this is no end marker.
-/

set_option autoImplicit false

namespace FormulaSyntax

/-! ## Pending entries are taken off, never changed -/

/-- The place of the token that opened it. -/
def Pending.span : Pending → Span
  | binary _ span | prefixed _ span | group span => span

namespace Stacks

/-- Reducing takes entries off the top of the pending stack and leaves the others as they are, so
    what it leaves is blamed on the same tokens as before. -/
theorem reducing_suffix {incoming : Option BinaryOp} {operands operands' : List Expr}
    {pending pending' : List Pending}
    (h : reducing incoming operands pending = .ok (operands', pending')) :
    pending' <:+ pending := by
  fun_induction reducing incoming operands pending with
  | case1 top span pending _ right left rest ih => exact (ih h).trans (List.suffix_cons _ _)
  | case2 => exact nomatch h
  | case3 | case4 =>
    obtain ⟨-, rfl⟩ := Prod.mk.inj (Except.ok.inj h)
    exact List.suffix_refl _

theorem folding_suffix {operands operands' : List Expr} {pending pending' : List Pending}
    (h : folding operands pending = .ok (operands', pending')) : pending' <:+ pending := by
  fun_induction folding operands pending with
  | case1 op span pending operand rest ih => exact (ih h).trans (List.suffix_cons _ _)
  | case2 => exact nomatch h
  | case3 =>
    obtain ⟨-, rfl⟩ := Prod.mk.inj (Except.ok.inj h)
    exact List.suffix_refl _

variable {s s' : Stacks}

theorem pending_suffix_of_reduce {incoming : Option BinaryOp} (h : s.reduce incoming = .ok s') :
    s'.pending <:+ s.pending := by
  unfold reduce at h
  split at h
  · next hr =>
    obtain rfl := Except.ok.inj h
    exact reducing_suffix hr
  · exact nomatch h

theorem pending_suffix_of_foldPrefixes (h : s.foldPrefixes = .ok s') :
    s'.pending <:+ s.pending := by
  unfold foldPrefixes at h
  split at h
  · next hf =>
    obtain rfl := Except.ok.inj h
    exact folding_suffix hf
  · exact nomatch h

theorem pending_suffix_of_closeGroup (h : s.closeGroup = .ok s') : s'.pending <:+ s.pending := by
  unfold closeGroup at h
  split at h
  · next hr =>
    obtain rfl := Except.ok.inj h
    exact (List.suffix_cons _ _).trans (pending_suffix_of_reduce hr)
  · exact nomatch h
  · exact nomatch h

end Stacks

namespace Parser

variable {α : Type} {answers : List Answer} {p q : Parser} {held : Stacks} {t u : Token}

/-! ## What the parser holds, and what it blames -/

/-- A token that a feed gives, other than the end marker. -/
def Gives (answers : List Answer) (t : Token) : Prop :=
  some (.ok t) ∈ answers ∧ t.isEndOfFile = false

/-- An error that a feed accounts for: a lexical error that it gives, or a syntax error whose span
    is the smallest one that covers two of its tokens, or only one. -/
def Origin (answers : List Answer) : ParseError → Prop
  | .lexical e => some (.error e) ∈ answers
  | .syntactic _ span =>
    ∃ t u, Gives answers t ∧ Gives answers u ∧ span = t.span.merge u.span
  | .internal _ => False

/-- All that a parser holds or can still ask for is among the answers of its feed. -/
structure DrawsOn (answers : List Answer) (p : Parser) : Prop where
  pending : p.source.pending ⊆ answers
  current : ∀ t, p.current = some t → some (.ok t) ∈ answers
  next : ∀ t, p.next = some t → some (.ok t) ∈ answers

/-- A failure that leaves the parser in order. That it is no fault is shown elsewhere. -/
def Blames (answers : List Answer) (e : ParseError) (q : Parser) : Prop :=
  (e.isInternal = false → Origin answers e) ∧ DrawsOn answers q

/-- Everything pending was opened by a token of the feed. -/
def Known (answers : List Answer) (held : Stacks) : Prop :=
  ∀ entry ∈ held.pending, ∃ t, Gives answers t ∧ entry.span = t.span

theorem drawsOn_ofFeed (answers : List Answer) : DrawsOn answers (ofFeed (.ofAnswers answers)) :=
  ⟨List.Subset.refl _, nofun, nofun⟩

theorem DrawsOn.gives (hp : DrawsOn answers p) (hc : p.current = some t)
    (ht : t.isEndOfFile = false) : Gives answers t := ⟨hp.current t hc, ht⟩

theorem Gives.origin (h : Gives answers t) (cause : SyntaxCause) :
    Origin answers (.syntactic cause t.span) := ⟨t, t, h, h, (Span.merge_self _).symm⟩

/-- An error between two tokens of the feed spans both, as a reserved form and an open group
    do. -/
theorem Gives.origin_merge (ht : Gives answers t) (hu : Gives answers u) (cause : SyntaxCause) :
    Origin answers (.syntactic cause (t.span.merge u.span)) := ⟨t, u, ht, hu, rfl⟩

theorem Blames.of_origin {e : ParseError} (h : Origin answers e) (hq : DrawsOn answers q) :
    Blames answers e q := ⟨fun _ => h, hq⟩

/-- A fault has no place, so there is nothing to account for but the parser it leaves. -/
theorem Blames.of_fault (fault : Fault) (hq : DrawsOn answers q) :
    Blames answers (.internal fault) q := ⟨nofun, hq⟩

/-- An error site knows the kind of the token that it looks at. That kind rules the end marker
    out. -/
theorem isEndOfFile_of_kind {kind : TokenKind} (hk : t.kind = kind) (hkind : kind ≠ .endOfFile) :
    t.isEndOfFile = false := by
  rw [Token.isEndOfFile, hk]
  exact beq_eq_false_iff_ne.mpr hkind

/-! ## Taking tokens -/

/-- All that is new in front of a parser comes from its feed: the token that moves up was the next
    one, and what takes its place was pending. But for priming, the lexical errors of a parse come
    from here. -/
theorem DrawsOn.shift (hp : DrawsOn answers p) :
    Ensures shift p (fun _ q => q.current = p.next ∧ DrawsOn answers q) (Blames answers) := by
  obtain ⟨⟨pending, asked⟩, current, next, primed⟩ := p
  have hrest : ∀ {answer : Answer} {rest : List Answer}, pending = answer :: rest →
      rest ⊆ answers ∧ answer ∈ answers := by
    rintro answer rest rfl
    exact ⟨fun _ h => hp.pending (List.mem_cons_of_mem _ h), hp.pending List.mem_cons_self⟩
  match pending with
  | [] => exact ⟨rfl, hp.pending, hp.next, nofun⟩
  | none :: rest => exact ⟨rfl, (hrest rfl).1, hp.next, nofun⟩
  | some (.ok t) :: rest =>
    refine ⟨rfl, (hrest rfl).1, hp.next, ?_⟩
    rintro u ⟨⟩
    exact (hrest rfl).2
  | some (.error e) :: rest =>
    exact Blames.of_origin (hrest rfl).2 ⟨(hrest rfl).1, hp.current, hp.next⟩

theorem DrawsOn.bump (hp : DrawsOn answers p) :
    Ensures bump p (fun t q => p.current = some t ∧ q.current = p.next ∧ DrawsOn answers q)
      (Blames answers) := by
  have h := hp.shift
  cases hs : Parser.shift p with
  | error e q => simpa only [Ensures, Parser.bump, hs] using h.of_error hs
  | ok passed q =>
    have hq := h.of_ok hs
    obtain rfl := eq_current_of_shift hs
    cases hc : p.current with
    | none => simpa only [Ensures, Parser.bump, hs, hc] using Blames.of_fault .missingToken hq.2
    | some t => simpa only [Ensures, Parser.bump, hs, hc] using ⟨trivial, hq⟩

theorem DrawsOn.orFault (hp : DrawsOn answers p) (r : Except Fault α) :
    Ensures (orFault r) p (fun a q => r = .ok a ∧ DrawsOn answers q) (Blames answers) := by
  cases r with
  | ok a => exact ⟨rfl, hp⟩
  | error fault => exact Blames.of_fault fault hp

/-! ## Operands -/

theorem DrawsOn.takeLiteral (hp : DrawsOn answers p) :
    Ensures takeLiteral p (fun _ => DrawsOn answers) (Blames answers) := by
  refine hp.bump.bind ?_
  rintro t q ⟨-, -, hq⟩
  refine (hq.orFault (literalOf t)).bind ?_
  rintro value r ⟨-, hr⟩
  exact .pure hr

/-- A reserved form is made up of a name and the token behind it, which is a symbol. -/
theorem DrawsOn.refuseReserved (hp : DrawsOn answers p) (ht : Gives answers t) :
    Ensures (refuseReserved t) p (fun _ => DrawsOn answers) (Blames answers) := by
  cases hr : reservedForm? t p with
  | none => simpa only [Ensures, Parser.refuseReserved, hr] using hp
  | some error =>
    simp only [Ensures, Parser.refuseReserved, hr]
    unfold reservedForm? at hr
    split at hr
    · next u hc =>
      obtain ⟨what, hwhat, rfl⟩ := Option.map_eq_some_iff.mp hr
      have hu : u.isEndOfFile = false := by
        rw [Bool.eq_false_iff]
        intro hend
        rw [eq_of_beq hend] at hwhat
        cases hwhat
      exact .of_origin (ht.origin_merge (hp.gives hc hu) _) hp
    · cases hr

theorem DrawsOn.takeName (hp : DrawsOn answers p) (hk : p.currentKind? = some .name) :
    Ensures takeName p (fun _ => DrawsOn answers) (Blames answers) := by
  refine hp.bump.bind ?_
  rintro t q ⟨hc, -, hq⟩
  have hkind : t.kind = .name := by
    rw [currentKind?, hc] at hk
    exact Option.some.inj hk
  have ht := hp.gives hc (isEndOfFile_of_kind hkind (by decide))
  refine (hq.refuseReserved ht).bind ?_
  intro _ q hq
  refine (hq.orFault (textOf t)).bind ?_
  rintro text r ⟨-, hr⟩
  exact .pure hr

/-- A symbol that is refused is another one than that of the end marker. A name is refused
    together with the token behind it. -/
theorem DrawsOn.primary (hp : DrawsOn answers p) :
    Ensures primary p (fun _ => DrawsOn answers) (Blames answers) := by
  cases hc : p.current with
  | none => simpa only [Ensures, Parser.primary, hc] using hp
  | some t =>
    have hk : p.currentKind? = some t.kind := by rw [currentKind?, hc, Option.map_some]
    have hprimary : Ensures (primaryAt t) p (fun _ => DrawsOn answers) (Blames answers) := by
      rcases hkind : t.kind with s | _ | _ | _ | value
      case symbol =>
        simp only [primaryAt, hkind]
        cases hs : reservedOperand? s with
        | none => exact .pure hp
        | some what =>
          have hend : (.symbol s : TokenKind) ≠ .endOfFile := by
            rintro heq
            rw [TokenKind.symbol.inj heq] at hs
            cases hs
          exact .throw (.of_origin ((hp.gives hc (isEndOfFile_of_kind hkind hend)).origin _) hp)
      case name =>
        simp only [primaryAt, hkind]
        exact .map_some (hp.takeName (hkind ▸ hk))
      all_goals
        simp only [primaryAt, hkind]
        exact .map_some hp.takeLiteral
    simpa only [Ensures, Parser.primary, hc] using hprimary

/-! ## Steps -/

/-- An expression that goes on holds only what the feed accounts for. -/
def OutcomeKnown (answers : List Answer) : Outcome → Prop
  | .next held _ => Known answers held
  | .done _ => True

/-- How a step ends from a parser that draws on the answers. -/
def Steps (answers : List Answer) (x : ParseM Outcome) (p : Parser) : Prop :=
  Ensures x p (fun o q => OutcomeKnown answers o ∧ DrawsOn answers q) (Blames answers)

theorem Known.empty : Known answers .empty := nofun

/-- Entries that were taken off need no account any more. -/
theorem Known.of_suffix {held' : Stacks} (h : Known answers held)
    (hsuffix : held'.pending <:+ held.pending) : Known answers held' :=
  fun entry hentry => h entry (hsuffix.subset hentry)

theorem Known.push (h : Known answers held) {entry : Pending} (ht : Gives answers t)
    (hspan : entry.span = t.span) : Known answers (held.push entry) := by
  intro other hother
  rcases List.mem_cons.mp hother with rfl | hother
  · exact ⟨t, ht, hspan⟩
  · exact h other hother

/-- A missing operand is blamed on the operator that waits for it. The current token plays no part
    in it, and may well be the end marker. -/
theorem Known.origin_missingOperand (h : Known answers held) {top : Pending}
    (htop : top ∈ held.pending) : Origin answers top.missingOperand := by
  obtain ⟨t, ht, hspan⟩ := h top htop
  cases top with
  | binary | prefixed | group =>
    obtain rfl := hspan
    exact ht.origin _

/-- Where neither a unit nor an error is found, nothing is pending, and the expression ends before
    it has begun. -/
theorem DrawsOn.takePrimary (hp : DrawsOn answers p) (hk : Known answers held) :
    Steps answers (takePrimary held) p := by
  refine hp.primary.bind ?_
  intro r q hq
  cases r with
  | some e => exact .pure ⟨hk, hq⟩
  | none =>
    cases hpending : held.pending with
    | nil => exact .pure ⟨trivial, hq⟩
    | cons top rest =>
      exact .throw (.of_origin (hk.origin_missingOperand (by simp [hpending])) hq)

theorem DrawsOn.operandStep (hp : DrawsOn answers p) (hk : Known answers held) :
    Steps answers (operandStep held) p := by
  cases ho : p.currentKind?.bind opening? with
  | none => simpa only [Steps, Ensures, Parser.operandStep, ho] using hp.takePrimary hk
  | some opened =>
    obtain ⟨kind, hkind, hopen⟩ := Option.bind_eq_some_iff.mp ho
    have hcases := opening?_eq_some hopen
    have htake : Steps answers (takeOpening held opened) p := by
      refine hp.bump.bind ?_
      rintro t q ⟨hc, -, hq⟩
      rw [currentKind?, hc, Option.map_some, Option.some.injEq] at hkind
      have hend : kind ≠ .endOfFile := by
        rintro rfl
        cases hopen
      have hspan : (opened t.span).span = t.span := by
        rcases hcases with ⟨op, -, rfl⟩ | ⟨-, rfl⟩ <;> rfl
      exact .pure ⟨hk.push (hp.gives hc (isEndOfFile_of_kind hkind hend)) hspan, hq⟩
    simpa only [Steps, Ensures, Parser.operandStep, ho] using htake

/-- The current token is covered only if it is no end marker. -/
theorem DrawsOn.unclosedGroup (hp : DrawsOn answers p) (hk : Known answers held) :
    Blames answers (unclosedGroup held p) p := by
  unfold Parser.unclosedGroup
  split
  · exact .of_fault _ hp
  · next opened hopened =>
    obtain ⟨entry, hentry, hgroup⟩ := List.exists_of_findSome?_eq_some hopened
    obtain ⟨t, ht, hspan⟩ := hk entry hentry
    obtain rfl : opened = t.span := by
      cases entry with
      | group span => exact (Option.some.inj hgroup).symm.trans hspan
      | binary | prefixed => exact nomatch hgroup
    split
    · next u hc =>
      split
      · exact .of_origin (ht.origin _) hp
      · next hend => exact .of_origin (ht.origin_merge (hp.gives hc (by simpa using hend)) _) hp
    · exact .of_origin (ht.origin _) hp

theorem DrawsOn.finish (hp : DrawsOn answers p) (hk : Known answers held) :
    Steps answers (finish held) p := by
  have hrefuse : Ensures (refuseOpenGroup held) p (fun _ => DrawsOn answers) (Blames answers) := by
    by_cases hopen : 0 < held.openGroups
    · simpa only [Ensures, refuseOpenGroup, if_pos hopen] using hp.unclosedGroup hk
    · simpa only [Ensures, refuseOpenGroup, if_neg hopen] using hp
  refine hrefuse.bind ?_
  intro _ q hq
  refine (hq.orFault held.result).bind ?_
  rintro e r ⟨-, hr⟩
  exact .pure ⟨trivial, hr⟩

theorem DrawsOn.closeGroup (hp : DrawsOn answers p) (hk : Known answers held) :
    Steps answers (closeGroup held) p := by
  refine hp.shift.bind ?_
  rintro _ q ⟨-, hq⟩
  refine (hq.orFault held.closeGroup).bind ?_
  rintro closed r ⟨hclosed, hr⟩
  exact .pure ⟨hk.of_suffix (Stacks.pending_suffix_of_closeGroup hclosed), hr⟩

theorem DrawsOn.takeOperator (hp : DrawsOn answers p) (hk : Known answers held) :
    Steps answers (takeOperator held) p := by
  refine hp.bump.bind ?_
  rintro t q ⟨hc, -, hq⟩
  refine (hq.orFault (BinaryOp.ofKind t.kind)).bind ?_
  rintro op q ⟨hop, hq⟩
  refine (hq.orFault (held.reduce (some op))).bind ?_
  rintro reduced r ⟨hreduced, hr⟩
  have ht : t.isEndOfFile = false := by
    rw [Bool.eq_false_iff]
    intro hend
    rw [eq_of_beq hend] at hop
    exact nomatch hop
  have hknown := hk.of_suffix (Stacks.pending_suffix_of_reduce hreduced)
  exact .pure ⟨hknown.push (hp.gives hc ht) rfl, hr⟩

theorem DrawsOn.behindOperand (hp : DrawsOn answers p) (hk : Known answers held) :
    Steps answers (behindOperand held) p := by
  cases hkind : p.currentKind? with
  | none => simpa only [Steps, Ensures, behindOperand_of_none hkind] using hp.finish hk
  | some kind =>
    cases hcloses : closes held kind with
    | true =>
      simpa only [Steps, Ensures, behindOperand_of_closes hkind hcloses] using hp.closeGroup hk
    | false =>
      cases hop : BinaryOp.ofKind? kind with
      | some op =>
        simpa only [Steps, Ensures, behindOperand_of_operator hkind hcloses hop]
          using hp.takeOperator hk
      | none =>
        simpa only [Steps, Ensures, behindOperand_of_other hkind hcloses hop] using hp.finish hk

/-- **A step holds and blames only what the feed accounts for.** -/
theorem DrawsOn.step (hp : DrawsOn answers p) (hk : Known answers held) (place : Place) :
    Steps answers (step held place) p := by
  cases place with
  | operand => exact hp.operandStep hk
  | operator =>
    refine (hp.orFault held.foldPrefixes).bind ?_
    rintro folded q ⟨hfolded, hq⟩
    exact hq.behindOperand (hk.of_suffix (Stacks.pending_suffix_of_foldPrefixes hfolded))

/-! ## Expressions and items -/

/-- The induction is on the tokens ahead. A step is followed by another one only if it holds what
    the feed accounts for. -/
theorem DrawsOn.run {p : Parser} {held : Stacks} (hp : DrawsOn answers p)
    (hk : Known answers held) (place : Place) :
    Ensures (run held place) p (fun _ => DrawsOn answers) (Blames answers) := by
  have hstep := hp.step hk place
  cases hs : Parser.step held place p with
  | error e q => simpa only [Ensures, run_of_error hs] using hstep.of_error hs
  | ok o q =>
    obtain ⟨ho, hq⟩ := hstep.of_ok hs
    cases o with
    | done result => simpa only [Ensures, run_of_done hs] using hq
    | next held' place' => simpa only [Ensures, run_of_next hs] using hq.run ho place'
termination_by p.upcoming.length
decreasing_by
  obtain ⟨t, ht⟩ := stepTakes hs
  rw [ht]
  exact Nat.lt_succ_self _

theorem DrawsOn.expression (hp : DrawsOn answers p) :
    Ensures expression p (fun _ => DrawsOn answers) (Blames answers) := hp.run .empty .operand

/-- Where an expression is missing, the parser still stands in front of the token that was found
    not to be the end. -/
theorem DrawsOn.required (hp : DrawsOn answers p) (ht : p.current = some t)
    (hend : t.isEndOfFile = false) :
    Ensures required p (fun _ => DrawsOn answers) (Blames answers) := by
  rw [required_eq]
  refine hp.expression.bind_run ?_
  intro r q hx hq
  cases r with
  | some e => exact .pure hq
  | none =>
    obtain ⟨rfl, -⟩ : q = p ∧ _ := (ensures_expression p).of_ok hx
    have horigin : Origin answers (unexpected q) := by
      simp only [unexpected, ht]
      exact (hq.gives ht hend).origin _
    exact Blames.of_origin horigin hq

theorem DrawsOn.assigned (hp : DrawsOn answers p) (ht : Gives answers t) :
    Ensures (assigned t) p (fun _ => DrawsOn answers) (Blames answers) := by
  rw [assigned_eq]
  refine hp.expression.bind ?_
  intro r q hq
  cases r with
  | some e => exact .pure hq
  | none => exact .throw (.of_origin (ht.origin _) hq)

theorem DrawsOn.assignment (hp : DrawsOn answers p) (h : p.atAssignment = true) :
    Ensures assignment p (fun _ => DrawsOn answers) (Blames answers) := by
  obtain ⟨-, equals, -, -, hnext, -, hequals⟩ := tokens_of_atAssignment h
  refine hp.bump.bind ?_
  rintro name q ⟨-, hcurrent, hq⟩
  refine hq.bump.bind ?_
  rintro second q' ⟨hc, -, hq'⟩
  obtain rfl : equals = second := by
    rw [hcurrent, hnext] at hc
    exact Option.some.inj hc
  have ht := hq.gives hc (isEndOfFile_of_lexeme (by simp [hequals]))
  refine (hq'.orFault (textOf name)).bind ?_
  rintro target r ⟨-, hr⟩
  exact (hr.assigned ht).bind fun _ _ hs => .pure hs

/-- An item is asked for only where the current token is known not to be the end, which is what a
    missing item is blamed on. -/
theorem DrawsOn.item (hp : DrawsOn answers p) (hc : p.current = some t)
    (ht : t.isEndOfFile = false) :
    Ensures item p (fun _ => DrawsOn answers) (Blames answers) := by
  by_cases h : p.atAssignment = true
  · simpa only [Ensures, Parser.item, if_pos h] using hp.assignment h
  · simpa only [Ensures, Parser.item, if_neg h] using hp.required hc ht

theorem DrawsOn.skipNewLines (hp : DrawsOn answers p) :
    Ensures skipNewLines p (fun _ => DrawsOn answers) (Blames answers) := by
  unfold Ensures
  fun_induction Parser.skipNewLines p with
  | case1 => exact hp
  | case2 p t hc hk passed q hs ih => exact ih (hp.shift.of_ok hs).2
  | case3 p t hc hk e q hs => exact hp.shift.of_error hs
  | case4 => exact hp

theorem DrawsOn.nextItem (hp : DrawsOn answers p) :
    Ensures nextItem p (fun _ => DrawsOn answers) (Blames answers) := by
  refine hp.skipNewLines.bind ?_
  intro _ q hq
  by_cases hend : q.atEnd = true
  · simpa only [Ensures, itemUnlessEnd, if_pos hend] using hq
  · cases hc : q.current with
    | none => exact absurd (by simp only [atEnd, hc]) hend
    | some t =>
      have ht : t.isEndOfFile = false := by simpa only [atEnd, hc, Bool.not_eq_true] using hend
      have hitem : Ensures (some <$> Parser.item) q (fun _ => DrawsOn answers) (Blames answers) :=
        .map_some (hq.item hc ht)
      simpa only [Ensures, itemUnlessEnd, if_neg hend] using hitem

theorem DrawsOn.refuseStray (hp : DrawsOn answers p) :
    Ensures refuseStray p (fun _ => DrawsOn answers) (Blames answers) := by
  cases hs : strayToken? p with
  | none => simpa only [Ensures, Parser.refuseStray, hs] using hp
  | some error =>
    simp only [Ensures, Parser.refuseStray, hs]
    unfold strayToken? at hs
    split at hs
    · next t hc =>
      split at hs
      · cases hs
      · next hnot =>
        obtain rfl := Option.some.inj hs
        have ht : t.isEndOfFile = false := by
          rw [Bool.eq_false_iff]
          exact fun hend => hnot (.inl hend)
        exact .of_origin ((hp.gives hc ht).origin _) hp
    · cases hs

/-! ## Whole parses -/

theorem DrawsOn.allItems {p : Parser} (hp : DrawsOn answers p) :
    Ensures allItems p (fun _ => DrawsOn answers) (Blames answers) := by
  rw [allItems_eq]
  refine hp.nextItem.bind_run ?_
  intro r q hn hq
  cases r with
  | none => exact .pure hq
  | some e =>
    refine hq.refuseStray.bind_run ?_
    intro _ q' hstray hq'
    have hlt : q'.upcoming.length < p.upcoming.length := by
      unfold Parser.refuseStray at hstray
      split at hstray
      · cases hstray
      · obtain ⟨-, rfl⟩ := EStateM.Result.ok.inj hstray
        exact length_upcoming_nextItem_lt hn
    exact hq'.allItems.bind fun _ _ hr => .pure hr
termination_by p.upcoming.length

theorem DrawsOn.prime (hp : DrawsOn answers p) :
    Ensures prime p (fun _ => DrawsOn answers) (Blames answers) := by
  refine Ensures.bind (m := fun a q => a = p ∧ q = p) ⟨rfl, rfl⟩ ?_
  rintro _ _ ⟨rfl, rfl⟩
  split
  · exact .pure hp
  · refine hp.shift.bind ?_
    rintro _ q ⟨-, hq⟩
    refine hq.shift.bind ?_
    rintro _ r ⟨-, hr⟩
    exact ⟨hr.pending, hr.current, hr.next⟩

/-- A parse that fails leaves its parser in order as well, for further parses to go on with. -/
theorem DrawsOn.parse (hp : DrawsOn answers p) :
    DrawsOn answers p.parse.parser ∧
      ∀ e, p.parse.result = .error e → Origin answers e := by
  have hprime := hp.prime
  cases hq : Parser.prime p with
  | error e q =>
    have hblames := hprime.of_error hq
    have hfault := ensures_prime p
    simp only [Parser.parse, hq]
    refine ⟨hblames.2, ?_⟩
    rintro _ ⟨⟩
    exact hblames.1 (hfault.of_error hq)
  | ok u q =>
    have hitems := (hprime.of_ok hq).allItems
    cases hr : Parser.allItems q with
    | ok es q' =>
      obtain ⟨hresult, hparser⟩ := parse_of_prime (r := .ok es) hq hr
      rw [hparser, hresult]
      refine ⟨hitems.of_ok hr, ?_⟩
      intro e he
      cases he
    | error e q' =>
      obtain ⟨hresult, hparser⟩ := parse_of_prime (r := .error e) hq hr
      rw [hparser]
      refine ⟨(hitems.of_error hr).2, ?_⟩
      intro e' he'
      have hinternal := parse_faultless he'
      obtain rfl : e = e' := Except.error.inj (hresult.symm.trans he')
      exact (hitems.of_error hr).1 hinternal

/-- The parser that a number of parses leaves. -/
def after (p : Parser) : Nat → Parser
  | 0 => p
  | calls + 1 => p.parse.parser.after calls

theorem DrawsOn.after (hp : DrawsOn answers p) (calls : Nat) : DrawsOn answers (p.after calls) := by
  induction calls generalizing p with
  | zero => exact hp
  | succ calls ih => exact ih hp.parse.1

/-- **The errors of all parses on a feed come from the feed.** -/
theorem origin_of_parse {e : ParseError} (calls : Nat)
    (h : ((ofFeed (.ofAnswers answers)).after calls).parse.result = .error e) :
    Origin answers e :=
  ((drawsOn_ofFeed answers).after calls).parse.2 e h

end Parser

end FormulaSyntax
