import FormulaSyntax.Proofs.Parsing.ItemReading

/-!
# Two parsers side by side

The parser has one way to change: it asks its feed, with a token in the current place, and moves
on. All else that it does is to look at its two tokens of lookahead. So what holds of two parsers
before and after they ask, and lets them have the same lookahead, holds before and after **every
part of the parser**, and both come to the same result (`Bond.allItems`).

A `Bond` is a relation of parsers of this kind. It says as well what becomes of two parsers that
get a lexical error; after all other errors they are related as before. With equal parsers on both
sides a bond is an invariant of a single one, and holds of a whole parse (`Bond.parse`).
-/

set_option autoImplicit false

namespace FormulaSyntax

/-- A failure that the feed of tokens gave. -/
def ParseError.isLexical : ParseError → Bool
  | lexical _ => true
  | syntactic .. | internal _ => false

namespace Parser

variable {α β : Type} {R : Parser → Parser → Prop} {L : LexError → Parser → Parser → Prop}

/-! ## Rules -/

/-- Two ends of the same part of the parser: the same result or error, with related parsers. -/
inductive Agrees (R : Parser → Parser → Prop) (L : LexError → Parser → Parser → Prop) :
    EStateM.Result ParseError Parser α → EStateM.Result ParseError Parser α → Prop
  | ok {a : α} {q q' : Parser} : R q q' → Agrees R L (.ok a q) (.ok a q')
  | error {e : ParseError} {q q' : Parser} :
      e.isLexical = false → R q q' → Agrees R L (.error e q) (.error e q')
  | lexical {e : LexError} {q q' : Parser} :
      L e q q' → Agrees R L (.error (.lexical e) q) (.error (.lexical e) q')

/-- How a part of the parser runs from two parsers. -/
def Alongside (R : Parser → Parser → Prop) (L : LexError → Parser → Parser → Prop)
    (x : ParseM α) (p p' : Parser) : Prop := Agrees R L (x p) (x p')

section Rules

variable {p p' : Parser}

theorem Alongside.pure {a : α} (h : R p p') : Alongside R L (pure a) p p' := .ok h

theorem Alongside.throw {e : ParseError} (he : e.isLexical = false) (h : R p p') :
    Alongside (α := α) R L (throw e) p p' := .error he h

/-- What follows a part may know, besides that the parsers are related, that it ran. -/
theorem Alongside.bind {x : ParseM α} {f : α → ParseM β} (hx : Alongside R L x p p')
    (hf : ∀ a q q', x p = .ok a q → R q q' → Alongside R L (f a) q q') :
    Alongside R L (x >>= f) p p' := by
  unfold Alongside at hx ⊢
  simp only [Bind.bind, EStateM.bind]
  generalize hr : x p = r at hx
  generalize x p' = r' at hx
  cases hx with
  | ok h => exact hf _ _ _ hr h
  | error he h => exact .error he h
  | lexical h => exact .lexical h

theorem Alongside.map_some {x : ParseM α} (h : Alongside R L x p p') :
    Alongside R L (some <$> x) p p' := by
  rw [map_eq_pure_bind]
  exact h.bind fun _ _ _ _ hq => .pure hq

/-- Whether there is a fault does not depend on a parser. -/
theorem Alongside.orFault (h : R p p') (r : Except Fault α) :
    Alongside R L (orFault r) p p' := by
  cases r with
  | ok a => exact .pure h
  | error fault => exact .throw rfl h

theorem Alongside.orFault_pure (h : R p p') (r : Except Fault α) (f : α → β) :
    Alongside R L (Parser.orFault r >>= fun a => Pure.pure (f a)) p p' :=
  (Alongside.orFault h r).bind fun _ _ _ _ hq => .pure hq

/-- A choice that both parsers make in the same way. -/
theorem Alongside.congr {x y : ParseM α} (hx : x p = y p) (hx' : x p' = y p')
    (h : Alongside R L y p p') : Alongside R L x p p' := by
  unfold Alongside
  rw [hx, hx']
  exact h

end Rules

/-- What every part of the parser keeps: parsers with the same lookahead, which become related
    parsers when they ask with a token in the current place. -/
structure Bond (R : Parser → Parser → Prop) (L : LexError → Parser → Parser → Prop) : Prop where
  current_eq : ∀ {p p'}, R p p' → p.current = p'.current
  next_eq : ∀ {p p'}, R p p' → p.next = p'.next
  shift : ∀ {p p' t}, R p p' → p.current = some t → Alongside R L shift p p'

namespace Bond

variable {p p' q q' : Parser} {held : Stacks} {t : Token}

/-- What parsers with the same lookahead decide on is the same. -/
theorem currentKind?_eq (b : Bond R L) (h : R p p') : p.currentKind? = p'.currentKind? := by
  rw [currentKind?, currentKind?, b.current_eq h]

theorem bump (b : Bond R L) (h : R p p') (hc : p.current = some t) :
    Alongside R L bump p p' := by
  have hshift := b.shift h hc
  unfold Alongside Parser.bump at *
  generalize hr : Parser.shift p = r at hshift
  generalize Parser.shift p' = r' at hshift
  cases hshift with
  | ok hq =>
    rw [eq_current_of_shift hr, hc]
    exact .ok hq
  | error he hq => exact .error he hq
  | lexical hq => exact .lexical hq

/-! ## Operands -/

theorem takeLiteral (b : Bond R L) (h : R p p') (hc : p.current = some t) :
    Alongside R L takeLiteral p p' := by
  refine (b.bump h hc).bind ?_
  intro t q q' _ hq
  exact .orFault_pure hq _ _

/-- The errors that the parser makes up itself are no lexical ones. -/
theorem isLexical_of_reservedForm? {e : ParseError} (h : reservedForm? t p = some e) :
    e.isLexical = false := by
  unfold reservedForm? at h
  split at h
  · obtain ⟨what, -, rfl⟩ := Option.map_eq_some_iff.mp h
    rfl
  · cases h

theorem refuseReserved (b : Bond R L) (h : R p p') (name : Token) :
    Alongside R L (refuseReserved name) p p' := by
  have hform : reservedForm? name p' = reservedForm? name p := by
    rw [reservedForm?, reservedForm?, b.current_eq h]
  unfold Alongside Parser.refuseReserved
  rw [hform]
  cases hr : reservedForm? name p with
  | none => exact .ok h
  | some e => exact .error (isLexical_of_reservedForm? hr) h

theorem takeName (b : Bond R L) (h : R p p') (hc : p.current = some t) :
    Alongside R L takeName p p' := by
  refine (b.bump h hc).bind ?_
  intro t q q' _ hq
  refine (b.refuseReserved hq t).bind ?_
  intro _ r r' _ hr
  exact .orFault_pure hr _ _

/-- The current token is the same for both, so both read it as the same unit or refuse it
    alike. -/
theorem primary (b : Bond R L) (h : R p p') : Alongside R L primary p p' := by
  cases hc : p.current with
  | none =>
    have hc' := (b.current_eq h).symm.trans hc
    unfold Alongside Parser.primary
    rw [hc, hc']
    exact .ok h
  | some t =>
    have hc' := (b.current_eq h).symm.trans hc
    refine .congr (y := primaryAt t) (by rw [Parser.primary, hc]) (by rw [Parser.primary, hc']) ?_
    rcases hkind : t.kind with s | _ | _ | _ | value
    case symbol =>
      cases hs : reservedOperand? s with
      | none => simpa only [primaryAt, hkind, hs] using .pure h
      | some what => simpa only [primaryAt, hkind, hs] using .throw rfl h
    case name => simpa only [primaryAt, hkind] using (b.takeName h hc).map_some
    all_goals simpa only [primaryAt, hkind] using (b.takeLiteral h hc).map_some

/-! ## Steps -/

theorem takePrimary (b : Bond R L) (h : R p p') (held : Stacks) :
    Alongside R L (takePrimary held) p p' := by
  refine (b.primary h).bind ?_
  intro r q q' _ hq
  cases r with
  | some e => exact .pure hq
  | none =>
    cases hpending : held.pending with
    | nil => exact .pure hq
    | cons top rest =>
      have htop : top.missingOperand.isLexical = false := by cases top <;> rfl
      exact .throw htop hq

theorem operandStep (b : Bond R L) (h : R p p') (held : Stacks) :
    Alongside R L (operandStep held) p p' := by
  have hkind := b.currentKind?_eq h
  cases ho : p.currentKind?.bind opening? with
  | none =>
    have ho' := hkind ▸ ho
    exact .congr (by rw [Parser.operandStep, ho]) (by rw [Parser.operandStep, ho'])
      (b.takePrimary h held)
  | some opened =>
    have ho' := hkind ▸ ho
    obtain ⟨kind, hk, -⟩ := Option.bind_eq_some_iff.mp ho
    obtain ⟨t, hc, -⟩ := current_of_kind hk
    refine .congr (y := takeOpening held opened) (by rw [Parser.operandStep, ho])
      (by rw [Parser.operandStep, ho']) ?_
    exact (b.bump h hc).bind fun _ _ _ _ hq => .pure hq

theorem isLexical_unclosedGroup (held : Stacks) (p : Parser) :
    (unclosedGroup held p).isLexical = false := by
  unfold unclosedGroup
  split
  · rfl
  · split
    · split <;> rfl
    · rfl

theorem finish (b : Bond R L) (h : R p p') (held : Stacks) :
    Alongside R L (finish held) p p' := by
  have hrefuse : Alongside R L (refuseOpenGroup held) p p' := by
    have herror : unclosedGroup held p' = unclosedGroup held p := by
      rw [unclosedGroup, unclosedGroup, b.current_eq h]
    unfold Alongside refuseOpenGroup
    rw [herror]
    split
    · exact .error (isLexical_unclosedGroup held p) h
    · exact .ok h
  refine hrefuse.bind ?_
  intro _ q q' _ hq
  exact .orFault_pure hq _ _

theorem closeGroup (b : Bond R L) (h : R p p') (hc : p.current = some t) (held : Stacks) :
    Alongside R L (closeGroup held) p p' := by
  refine (b.shift h hc).bind ?_
  intro _ q q' _ hq
  exact .orFault_pure hq _ _

theorem takeOperator (b : Bond R L) (h : R p p') (hc : p.current = some t) (held : Stacks) :
    Alongside R L (takeOperator held) p p' := by
  refine (b.bump h hc).bind ?_
  intro t q q' _ hq
  refine (Alongside.orFault hq _).bind ?_
  intro op r r' _ hr
  exact .orFault_pure hr _ _

theorem behindOperand (b : Bond R L) (h : R p p') (held : Stacks) :
    Alongside R L (behindOperand held) p p' := by
  have hkind := b.currentKind?_eq h
  cases hk : p.currentKind? with
  | none =>
    have hk' := hkind ▸ hk
    exact .congr (behindOperand_of_none hk) (behindOperand_of_none hk') (b.finish h held)
  | some kind =>
    have hk' := hkind ▸ hk
    obtain ⟨t, hc, -⟩ := current_of_kind hk
    cases hcloses : closes held kind with
    | true =>
      exact .congr (behindOperand_of_closes hk hcloses) (behindOperand_of_closes hk' hcloses)
        (b.closeGroup h hc held)
    | false =>
      cases hop : BinaryOp.ofKind? kind with
      | some op =>
        exact .congr (behindOperand_of_operator hk hcloses hop)
          (behindOperand_of_operator hk' hcloses hop) (b.takeOperator h hc held)
      | none =>
        exact .congr (behindOperand_of_other hk hcloses hop)
          (behindOperand_of_other hk' hcloses hop) (b.finish h held)

/-- **Related parsers take the same step**, and are related afterwards. -/
theorem step (b : Bond R L) (h : R p p') (held : Stacks) (place : Place) :
    Alongside R L (step held place) p p' := by
  cases place with
  | operand => exact b.operandStep h held
  | operator =>
    refine (Alongside.orFault h _).bind ?_
    intro folded q q' _ hq
    exact b.behindOperand hq folded

/-! ## Expressions and items -/

/-- The induction is on the tokens ahead of the first parser; the second one takes as many
    steps. -/
theorem run {p p' : Parser} (b : Bond R L) (h : R p p') (held : Stacks) (place : Place) :
    Alongside R L (run held place) p p' := by
  have hstep := b.step h held place
  unfold Alongside at hstep ⊢
  generalize hs : Parser.step held place p = r at hstep
  generalize hs' : Parser.step held place p' = r' at hstep
  cases hstep with
  | @ok o q q' hq =>
    cases o with
    | done result =>
      rw [run_of_done hs, run_of_done hs']
      exact .ok hq
    | next held' place' =>
      rw [run_of_next hs, run_of_next hs']
      exact b.run hq held' place'
  | error he hq =>
    rw [run_of_error hs, run_of_error hs']
    exact .error he hq
  | lexical hq =>
    rw [run_of_error hs, run_of_error hs']
    exact .lexical hq
termination_by p.upcoming.length
decreasing_by
  obtain ⟨t, ht⟩ := stepTakes hs
  rw [ht]
  exact Nat.lt_succ_self _

theorem expression (b : Bond R L) (h : R p p') : Alongside R L expression p p' :=
  b.run h .empty .operand

theorem required (b : Bond R L) (h : R p p') : Alongside R L required p p' := by
  rw [required_eq]
  refine (b.expression h).bind ?_
  intro r q q' _ hq
  cases r with
  | some e => exact .pure hq
  | none =>
    have herror : unexpected q' = unexpected q := by
      rw [unexpected, unexpected, b.current_eq hq]
    have hlexical : (unexpected q).isLexical = false := by
      unfold unexpected
      split <;> rfl
    show Agrees R L (.error (unexpected q) q) (.error (unexpected q') q')
    rw [herror]
    exact .error hlexical hq

theorem assigned (b : Bond R L) (h : R p p') (equals : Token) :
    Alongside R L (assigned equals) p p' := by
  rw [assigned_eq]
  refine (b.expression h).bind ?_
  intro r q q' _ hq
  cases r with
  | some e => exact .pure hq
  | none => exact .throw rfl hq

theorem assignment (b : Bond R L) (h : R p p') (hassign : p.atAssignment = true) :
    Alongside R L assignment p p' := by
  obtain ⟨name, equals, -, hc, hnext, -, -⟩ := tokens_of_atAssignment hassign
  refine (b.bump h hc).bind ?_
  intro first q q' hbump hq
  obtain ⟨-, hcurrent, -⟩ := (ensures_bump hc).of_ok hbump
  refine (b.bump hq (hcurrent.trans hnext)).bind ?_
  intro second q q' _ hq
  refine (Alongside.orFault hq _).bind ?_
  intro target q q' _ hq
  refine (b.assigned hq second).bind ?_
  intro value r r' _ hr
  exact .pure hr

theorem item (b : Bond R L) (h : R p p') : Alongside R L item p p' := by
  have hsame : p'.atAssignment = p.atAssignment := by
    rw [atAssignment, atAssignment, nextKind?, nextKind?, b.currentKind?_eq h, b.next_eq h]
  by_cases ha : p.atAssignment = true
  · exact .congr (by rw [Parser.item, if_pos ha]) (by rw [Parser.item, if_pos (hsame.trans ha)])
      (b.assignment h ha)
  · exact .congr (by rw [Parser.item, if_neg ha]) (by rw [Parser.item, if_neg (hsame ▸ ha)])
      (b.required h)

theorem skipNewLines {p p' : Parser} (b : Bond R L) (h : R p p') :
    Alongside R L skipNewLines p p' := by
  have hkind := b.currentKind?_eq h
  by_cases hk : p.currentKind? = some (.symbol .newLine)
  · have hk' := hkind ▸ hk
    obtain ⟨t, hc, -⟩ := current_of_kind hk
    have hshift := b.shift h hc
    unfold Alongside at hshift ⊢
    generalize hs : Parser.shift p = r at hshift
    generalize hs' : Parser.shift p' = r' at hshift
    cases hshift with
    | ok hq =>
      rw [skipNewLines_of_shift hk hs, skipNewLines_of_shift hk' hs']
      exact b.skipNewLines hq
    | error he hq =>
      rw [skipNewLines_of_error hk hs, skipNewLines_of_error hk' hs']
      exact .error he hq
    | lexical hq =>
      rw [skipNewLines_of_error hk hs, skipNewLines_of_error hk' hs']
      exact .lexical hq
  · unfold Alongside
    rw [skipNewLines_of_other hk, skipNewLines_of_other (hkind ▸ hk)]
    exact .ok h
termination_by p.upcoming.length
decreasing_by
  rw [upcoming_eq_cons_of_shift hc hs]
  exact Nat.lt_succ_self _

theorem nextItem (b : Bond R L) (h : R p p') : Alongside R L nextItem p p' := by
  refine (b.skipNewLines h).bind ?_
  intro _ q q' _ hq
  have hsame : q'.atEnd = q.atEnd := by rw [atEnd, atEnd, b.current_eq hq]
  by_cases hend : q.atEnd = true
  · unfold Alongside itemUnlessEnd
    rw [if_pos hend, if_pos (hsame.trans hend)]
    exact .ok hq
  · exact .congr (by rw [itemUnlessEnd, if_neg hend])
      (by rw [itemUnlessEnd, if_neg (hsame ▸ hend)]) (b.item hq).map_some

theorem refuseStray (b : Bond R L) (h : R p p') : Alongside R L refuseStray p p' := by
  have hstray : strayToken? p' = strayToken? p := by
    rw [strayToken?, strayToken?, b.current_eq h]
  unfold Alongside Parser.refuseStray
  rw [hstray]
  cases hs : strayToken? p with
  | none => exact .ok h
  | some e =>
    have hlexical : e.isLexical = false := by
      unfold strayToken? at hs
      split at hs
      · split at hs
        · cases hs
        · rw [← Option.some.inj hs]
          rfl
      · cases hs
    exact .error hlexical h

/-- **All items of related parsers are the same**, and the parsers are related afterwards. -/
theorem allItems {p p' : Parser} (b : Bond R L) (h : R p p') : Alongside R L allItems p p' := by
  rw [allItems_eq]
  refine (b.nextItem h).bind ?_
  intro r q q' hn hq
  cases r with
  | none => exact .pure hq
  | some e =>
    refine (b.refuseStray hq).bind ?_
    intro _ r r' hstray hr
    have hlt : r.upcoming.length < p.upcoming.length := by
      unfold Parser.refuseStray at hstray
      split at hstray
      · cases hstray
      · obtain ⟨-, rfl⟩ := EStateM.Result.ok.inj hstray
        exact length_upcoming_nextItem_lt hn
    exact (b.allItems hr).bind fun _ _ _ _ hs => .pure hs
termination_by p.upcoming.length

end Bond

/-! ## Invariants of a single parser -/

section Invariant

variable {I : Parser → Prop} {J : LexError → Parser → Prop} {p : Parser}

/-- An invariant has only to be kept when the parser asks, and then only an error of the feed can
    end the parse. -/
theorem Bond.of_shift (h : ∀ {p}, I p →
      Ensures Parser.shift p (fun _ => I) (fun e q => ∃ le, e = .lexical le ∧ J le q)) :
    Bond (fun p p' => p = p' ∧ I p) (fun e q _ => J e q) where
  current_eq h := by rw [h.1]
  next_eq h := by rw [h.1]
  shift := by
    rintro p _ t ⟨rfl, hp⟩ -
    have hshift := h hp
    unfold Alongside
    cases hs : Parser.shift p with
    | ok passed q => exact .ok ⟨rfl, hshift.of_ok hs⟩
    | error e q =>
      obtain ⟨le, rfl, hq⟩ := hshift.of_error hs
      exact .lexical hq

/-- What a bond of equal parsers says of a single one. -/
theorem Alongside.ensures {x : ParseM α}
    (h : Alongside (fun p p' => p = p' ∧ I p) (fun e q _ => J e q) x p p) :
    Ensures x p (fun _ => I)
      (fun e q => (e.isLexical = false → I q) ∧ ∀ le, e = .lexical le → J le q) := by
  unfold Alongside at h
  unfold Ensures
  generalize hr : x p = r at h
  generalize hr' : x p = r' at h
  cases h with
  | ok hq => exact hq.2
  | error he hq => exact ⟨fun _ => hq.2, fun le hle => by subst hle; exact nomatch he⟩
  | lexical hq => exact ⟨nofun, fun le hle => by cases hle; exact hq⟩

/-- What a bond of equal parsers says of a whole parse: what `prime` brings about holds in the end,
    unless the parse got a lexical error. -/
theorem Bond.parse (b : Bond (fun p p' => p = p' ∧ I p) (fun e q _ => J e q))
    (hprime : Ensures prime p (fun _ => I) (fun e q => ∃ le, e = .lexical le ∧ J le q)) :
    I p.parse.parser ∧ (∀ le, p.parse.result ≠ .error (.lexical le)) ∨
      ∃ le, p.parse.result = .error (.lexical le) ∧ J le p.parse.parser := by
  cases hq : prime p with
  | error e q =>
    obtain ⟨le, rfl, hstopped⟩ := hprime.of_error hq
    have hparse : p.parse = ⟨.error (.lexical le), [], q⟩ := by simp only [Parser.parse, hq]
    rw [hparse]
    exact .inr ⟨le, rfl, hstopped⟩
  | ok u q =>
    have hitems := (b.allItems ⟨rfl, hprime.of_ok hq⟩).ensures
    cases hr : Parser.allItems q with
    | ok es q' =>
      obtain ⟨hresult, hparser⟩ := parse_of_prime (r := .ok es) hq hr
      rw [hresult, hparser]
      refine .inl ⟨hitems.of_ok hr, ?_⟩
      intro le hle
      cases hle
    | error e q' =>
      obtain ⟨hresult, hparser⟩ := parse_of_prime (r := .error e) hq hr
      rw [hresult, hparser]
      cases e with
      | lexical le => exact .inr ⟨le, rfl, (hitems.of_error hr).2 le rfl⟩
      | syntactic | internal =>
        refine .inl ⟨(hitems.of_error hr).1 rfl, ?_⟩
        intro le hle
        cases hle

end Invariant

end Parser

end FormulaSyntax
