import FormulaSyntax.Proofs.Parsing.Resuming

/-!
# The milestones of a parse, and what it has pulled

A parse passes one milestone for each item, and they count the items from one (`parse_milestones`).
The feed is asked more often from each milestone to the next, or as often, and not less often in
the end: so the milestones can be put in their places among the answers that the feed gave.

An error among these answers ends the parse at once, so there is none if the parse ends in another
way than with a lexical error (`Unbroken.parse`).
-/

set_option autoImplicit false

namespace FormulaSyntax

/-- Milestones that were passed one after the other, between two numbers of questions. -/
def Climb : Nat → List Milestone → Nat → Prop
  | low, [], high => low ≤ high
  | low, m :: rest, high => low ≤ m.asked ∧ Climb m.asked rest high

theorem Climb.of_le {low low' high : Nat} {milestones : List Milestone}
    (h : Climb low milestones high) (hle : low' ≤ low) : Climb low' milestones high := by
  cases milestones with
  | nil => exact Nat.le_trans hle h
  | cons m rest => exact ⟨Nat.le_trans hle h.1, h.2⟩

theorem Climb.le {low high : Nat} {milestones : List Milestone} (h : Climb low milestones high) :
    low ≤ high := by
  induction milestones generalizing low with
  | nil => exact h
  | cons m rest ih => exact Nat.le_trans h.1 (ih h.2)

namespace Parser

variable {α : Type} {answers : List Answer} {p q : Parser}

/-! ## How often the feed has been asked -/

/-- At least as often as the given number. -/
def AskedFrom (low : Nat) (p : Parser) : Prop := low ≤ p.source.asked

/-- Asking counts up, also if the answer is an error. -/
theorem AskedFrom.shift {low : Nat} (h : AskedFrom low p) :
    Ensures shift p (fun _ => AskedFrom low)
      (fun e q => ∃ le, e = .lexical le ∧ AskedFrom low q) := by
  obtain ⟨⟨pending, asked⟩, current, next, primed⟩ := p
  have hmore : low ≤ asked + 1 := Nat.le_succ_of_le h
  match pending with
  | [] | none :: _ | some (.ok _) :: _ => exact hmore
  | some (.error e) :: _ => exact ⟨e, rfl, hmore⟩

theorem bond_askedFrom (low : Nat) :
    Bond (fun p p' => p = p' ∧ AskedFrom low p) (fun _ q _ => AskedFrom low q) :=
  .of_shift fun h => h.shift

theorem asked_nextItem (p : Parser) :
    Ensures nextItem p (fun _ q => p.source.asked ≤ q.source.asked)
      (fun _ q => p.source.asked ≤ q.source.asked) := by
  have h := ((bond_askedFrom p.source.asked).nextItem ⟨rfl, Nat.le_refl _⟩).ensures
  refine h.mono_fail ?_
  rintro e q ⟨hother, hlexical⟩
  cases e with
  | lexical le => exact hlexical le rfl
  | syntactic | internal => exact hother rfl

/-! ## Milestones -/

/-- **Each item that is read passes the next milestone**, behind those passed before. -/
theorem itemsFrom_passes (p : Parser) (items : List Expr) (milestones : List Milestone) :
    let parsing := itemsFrom p items milestones
    ∃ more, parsing.milestones = milestones.reverse ++ more ∧
      more.map Milestone.items = List.range' (itemsPassed milestones + 1) more.length ∧
      Climb p.source.asked more parsing.parser.source.asked ∧
      ∀ f, parsing.result = .ok f → f.items.length = items.length + more.length := by
  have hasked := asked_nextItem p
  intro parsing
  cases hn : nextItem p with
  | error e q =>
    have heq : parsing = _ := itemsFrom_of_error items milestones hn
    rw [heq]
    exact ⟨[], (List.append_nil _).symm, rfl, hasked.of_error hn, nofun⟩
  | ok r q =>
    have hle := hasked.of_ok hn
    cases r with
    | none =>
      have heq : parsing = _ := itemsFrom_of_end items milestones hn
      rw [heq]
      refine ⟨[], (List.append_nil _).symm, rfl, hle, ?_⟩
      rintro f ⟨⟩
      exact List.length_reverse
    | some e =>
      cases hs : strayToken? q with
      | some error =>
        have heq : parsing = _ := itemsFrom_of_stray items milestones hn hs
        rw [heq]
        refine ⟨[milestone milestones q], List.reverse_cons, rfl, ⟨hle, Nat.le_refl _⟩, nofun⟩
      | none =>
        have heq : parsing = _ := itemsFrom_of_item items milestones hn hs
        obtain ⟨more, hmore, hitems, hclimb, hcount⟩ :=
          itemsFrom_passes q (e :: items) (milestone milestones q :: milestones)
        rw [heq]
        refine ⟨milestone milestones q :: more, ?_, ?_, ⟨hle, hclimb⟩, ?_⟩
        · rw [hmore, List.reverse_cons, List.append_assoc, List.singleton_append]
        · rw [List.map_cons, hitems]
          rfl
        · intro f hf
          rw [hcount f hf, List.length_cons, List.length_cons]
          omega
termination_by p.upcoming.length
decreasing_by exact length_upcoming_nextItem_lt hn

/-- **The milestones of a parse count its items**, and climb to how often the feed was asked. -/
theorem parse_milestones (p : Parser) :
    p.parse.milestones.map Milestone.items = List.range' 1 p.parse.milestones.length ∧
      Climb 0 p.parse.milestones p.parse.parser.source.asked ∧
      ∀ f, p.parse.result = .ok f → f.items.length = p.parse.milestones.length := by
  cases hp : prime p with
  | error e q =>
    simp only [parse, hp]
    refine ⟨rfl, Nat.zero_le _, ?_⟩
    rintro f ⟨⟩
  | ok u q =>
    obtain ⟨more, hmore, hitems, hclimb, hcount⟩ := itemsFrom_passes q [] []
    rw [List.reverse_nil, List.nil_append] at hmore
    simp only [parse, hp, hmore]
    refine ⟨hitems, hclimb.of_le (Nat.zero_le _), ?_⟩
    intro f hf
    rw [hcount f hf, List.length_nil, Nat.zero_add]

/-! ## Errors that were pulled -/

/-- None of the answers that the parser was given is an error. -/
structure Unbroken (answers : List Answer) (p : Parser) : Prop extends Tracks answers p where
  not_mem : ∀ e, some (.error e) ∉ answers.take p.source.asked

theorem unbroken_ofFeed (answers : List Answer) :
    Unbroken answers (ofFeed (.ofAnswers answers)) :=
  ⟨tracks_ofFeed answers, fun _ h => nomatch h⟩

/-- An answer that is an error ends the parse with it, so a parser that goes on was given none. -/
theorem Unbroken.shift (h : Unbroken answers p) :
    Ensures shift p (fun _ => Unbroken answers)
      (fun failure _ => ∃ e, failure = .lexical e ∧ True) := by
  have htracks := h.toTracks.shift
  obtain ⟨⟨pending, asked⟩, current, next, primed⟩ := p
  have hpending : pending = answers.drop asked := h.pending_eq
  have hmore : ∀ {answer : Answer} {rest : List Answer}, answer :: rest = answers.drop asked →
      (∀ e, answer ≠ some (.error e)) → ∀ e, some (.error e) ∉ answers.take (asked + 1) := by
    intro answer rest hdrop hanswer e hmem
    rw [take_succ_of_drop hdrop] at hmem
    rcases List.mem_append.mp hmem with hmem | hmem
    · exact h.not_mem e hmem
    · exact hanswer e (List.mem_singleton.mp hmem).symm
  match pending with
  | [] =>
    have hall : answers.take asked = answers :=
      List.take_of_length_le (List.drop_eq_nil_iff.mp hpending.symm)
    refine ⟨(htracks.of_ok rfl).1, fun e hmem => h.not_mem e ?_⟩
    rw [hall]
    exact List.mem_of_mem_take hmem
  | none :: rest => exact ⟨(htracks.of_ok rfl).1, hmore hpending nofun⟩
  | some (.ok t) :: rest => exact ⟨(htracks.of_ok rfl).1, hmore hpending nofun⟩
  | some (.error e) :: rest => exact ⟨e, rfl, trivial⟩

theorem Unbroken.prime (h : Unbroken answers p) :
    Ensures prime p (fun _ => Unbroken answers)
      (fun failure _ => ∃ e, failure = .lexical e ∧ True) := by
  refine Ensures.bind (m := fun a q => a = p ∧ q = p) ⟨rfl, rfl⟩ ?_
  rintro _ _ ⟨rfl, rfl⟩
  split
  · exact .pure h
  · refine h.shift.bind ?_
    intro _ q hq
    refine hq.shift.bind ?_
    intro _ r hr
    exact ⟨⟨hr.pending_eq, hr.held_suffix⟩, hr.not_mem⟩

theorem bond_unbroken (answers : List Answer) :
    Bond (fun p p' => p = p' ∧ Unbroken answers p) (fun _ _ _ => True) :=
  .of_shift fun h => h.shift

/-- **An error that the parser is given ends the parse at once**: if the parse ends in another way,
    there was none. -/
theorem Unbroken.parse (h : Unbroken answers p)
    (hresult : ∀ e, p.parse.result ≠ .error (.lexical e)) : Unbroken answers p.parse.parser := by
  rcases (bond_unbroken answers).parse h.prime with ⟨hunbroken, -⟩ | ⟨e, he, -⟩
  · exact hunbroken
  · exact absurd he (hresult e)

end Parser

end FormulaSyntax
