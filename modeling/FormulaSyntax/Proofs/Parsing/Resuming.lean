import FormulaSyntax.Proofs.Parsing.Alongside
import FormulaSyntax.Proofs.Parsing.Origins

/-!
# Parsing on after a lexical error

A parser can be used again when a parse has failed. If the feed gave a lexical error, the parser
goes on like a fresh one on **what it still holds and what the feed still has** (`parse_resumes`).
It holds tokens, and perhaps an end: a feed that had nothing to give behind the current token may
go on behind that gap, but for the parser the end stays where it is.

The two sides differ in how often their feeds have been asked, and in nothing else that a parse
looks at. The invariant of a single parser is `Tracks`, which says that the feed goes on where it
was left and that the tokens held are the last ones it gave.

A parser that a lexical error has kept from being primed is primed anew. **What it holds plays no
part then** (`SameFeed`), so the result above is for parsers that were primed, or hold nothing.
-/

set_option autoImplicit false

namespace FormulaSyntax

namespace Parser

variable {answers : List Answer} {p p' q q' : Parser}

/-! ## What a parse does not look at -/

/-- Primed parsers with the same tokens in view and the same answers to come. -/
structure SameLookahead (p p' : Parser) : Prop where
  primed : p.primed = true
  primed' : p'.primed = true
  current_eq : p.current = p'.current
  next_eq : p.next = p'.next
  pending_eq : p.source.pending = p'.source.pending

/-- Parsers that are not primed, with the same answers to come. They may hold different tokens. -/
structure SameFeed (p p' : Parser) : Prop where
  primed : p.primed = false
  primed' : p'.primed = false
  pending_eq : p.source.pending = p'.source.pending

/-- Parsers that the same is ahead of. -/
def SameAhead (p p' : Parser) : Prop := SameLookahead p p' ∨ SameFeed p p'

theorem bond_sameLookahead : Bond SameLookahead (fun _ => SameLookahead) where
  current_eq h := h.current_eq
  next_eq h := h.next_eq
  shift := by
    intro p p' t h _
    obtain ⟨⟨pending, asked⟩, current, next, primed⟩ := p
    obtain ⟨⟨pending', asked'⟩, current', next', primed'⟩ := p'
    obtain ⟨hprimed, hprimed', rfl, rfl, rfl⟩ := h
    match pending with
    | [] | none :: _ => exact .ok ⟨hprimed, hprimed', rfl, rfl, rfl⟩
    | some (.ok u) :: _ => exact .ok ⟨hprimed, hprimed', rfl, rfl, rfl⟩
    | some (.error e) :: _ => exact .lexical ⟨hprimed, hprimed', rfl, rfl, rfl⟩

/-- Priming fills both places, whatever they held before. -/
theorem SameFeed.prime (h : SameFeed p p') :
    Alongside SameLookahead (fun _ => SameFeed) prime p p' := by
  obtain ⟨⟨pending, asked⟩, current, next, primed⟩ := p
  obtain ⟨⟨pending', asked'⟩, current', next', primed'⟩ := p'
  obtain ⟨rfl, rfl, rfl⟩ := h
  match pending with
  | [] | [none] | [some (.ok _)] => exact .ok ⟨rfl, rfl, rfl, rfl, rfl⟩
  | some (.error e) :: _ => exact .lexical ⟨rfl, rfl, rfl⟩
  | none :: none :: _ | none :: some (.ok _) :: _ => exact .ok ⟨rfl, rfl, rfl, rfl, rfl⟩
  | some (.ok _) :: none :: _ => exact .ok ⟨rfl, rfl, rfl, rfl, rfl⟩
  | some (.ok _) :: some (.ok _) :: _ => exact .ok ⟨rfl, rfl, rfl, rfl, rfl⟩
  | none :: some (.error e) :: _ => exact .lexical ⟨rfl, rfl, rfl⟩
  | some (.ok _) :: some (.error e) :: _ => exact .lexical ⟨rfl, rfl, rfl⟩

theorem prime_of_primed (h : p.primed = true) : prime p = .ok () p := by
  obtain ⟨source, current, next, primed⟩ := p
  obtain rfl : primed = true := h
  rfl

/-- Parsers that are primed in the same way have the same parse. -/
theorem parse_of_sameLookahead (h : SameLookahead q q') (hp : prime p = .ok () q)
    (hp' : prime p' = .ok () q') :
    p.parse.result = p'.parse.result ∧ SameLookahead p.parse.parser p'.parse.parser := by
  have hitems := bond_sameLookahead.allItems h
  unfold Alongside at hitems
  generalize hr : allItems q = r at hitems
  generalize hr' : allItems q' = r' at hitems
  have hfail : ∀ {e : ParseError} {s s' : Parser}, allItems q = .error e s →
      allItems q' = .error e s' → SameLookahead s s' →
        p.parse.result = p'.parse.result ∧ SameLookahead p.parse.parser p'.parse.parser := by
    intro e s s' hs hs' hsame
    obtain ⟨hresult, hparser⟩ := parse_of_prime (r := .error e) hp hs
    obtain ⟨hresult', hparser'⟩ := parse_of_prime (r := .error e) hp' hs'
    rw [hresult, hresult', hparser, hparser']
    exact ⟨rfl, hsame⟩
  cases hitems with
  | @ok es s s' hs =>
    obtain ⟨hresult, hparser⟩ := parse_of_prime (r := .ok es) hp hr
    obtain ⟨hresult', hparser'⟩ := parse_of_prime (r := .ok es) hp' hr'
    rw [hresult, hresult', hparser, hparser']
    exact ⟨rfl, hs⟩
  | error _ hs => exact hfail hr hr' hs
  | lexical hs => exact hfail hr hr' hs

theorem SameAhead.parse (h : SameAhead p p') :
    p.parse.result = p'.parse.result ∧ SameAhead p.parse.parser p'.parse.parser := by
  rcases h with h | h
  · obtain ⟨hresult, hsame⟩ :=
      parse_of_sameLookahead h (prime_of_primed h.primed) (prime_of_primed h.primed')
    exact ⟨hresult, .inl hsame⟩
  · have hprime := h.prime
    unfold Alongside at hprime
    generalize hr : Parser.prime p = r at hprime
    generalize hr' : Parser.prime p' = r' at hprime
    cases hprime with
    | ok hs =>
      obtain ⟨hresult, hsame⟩ := parse_of_sameLookahead hs hr hr'
      exact ⟨hresult, .inl hsame⟩
    | error he hs =>
      simp only [Parser.parse, hr, hr']
      exact ⟨trivial, .inl hs⟩
    | lexical hs =>
      simp only [Parser.parse, hr, hr']
      exact ⟨trivial, .inr hs⟩

/-- **With the same ahead of them, parsers have the same results in all parses.** -/
theorem SameAhead.after (h : SameAhead p p') (calls : Nat) :
    (p.after calls).parse.result = (p'.after calls).parse.result := by
  induction calls generalizing p p' with
  | zero => exact h.parse.1
  | succ calls ih => exact ih h.parse.2

-- The name is held by a parser that the error has kept from being primed, and it is dropped.
example :
    let p := (ofFeed (.ofAnswers [some (.ok (.name "a" ⟨0, 1⟩)),
      some (.error ⟨.invalidToken '$', ⟨2, 3⟩⟩), some (.ok (.symbol .newLine ⟨3, 4⟩)),
      some (.ok (.name "b" ⟨4, 5⟩)), some (.ok .endOfFile)])).parse.parser
    p.next = some (.name "a" ⟨0, 1⟩) ∧ p.parse.result = .ok ⟨[.ident ⟨"b"⟩]⟩ := by
  decide +kernel

/-! ## What is still ahead of a parser -/

/-- The tokens in the two places of the lookahead. -/
def held (p : Parser) : List Token := p.current.toList ++ p.next.toList

/-- What a parser holds and what its feed still has: the tokens, the end that is in view behind
    the current token, and the answers to come. -/
def ahead (p : Parser) : List Answer :=
  p.held.map (fun t => some (.ok t))
    ++ (if p.current.isSome && p.next.isNone then [none] else []) ++ p.source.pending

/-- A fresh parser on what is ahead of a primed one is primed to the same lookahead. -/
theorem prime_ahead (hprimed : p.primed = true) (hcurrent : p.current.isSome = true) :
    ∃ q, prime (ofFeed (.ofAnswers p.ahead)) = .ok () q ∧ SameLookahead p q := by
  obtain ⟨⟨pending, asked⟩, current, next, primed⟩ := p
  obtain ⟨t, rfl⟩ := Option.isSome_iff_exists.mp hcurrent
  cases next with
  | none => exact ⟨_, rfl, hprimed, rfl, rfl, rfl, rfl⟩
  | some u => exact ⟨_, rfl, hprimed, rfl, rfl, rfl, rfl⟩

theorem resumes_of_primed (hprimed : p.primed = true) (hcurrent : p.current.isSome = true)
    (more : Nat) :
    (p.after more).parse.result = ((ofFeed (.ofAnswers p.ahead)).after more).parse.result := by
  obtain ⟨q, hq, hsame⟩ := prime_ahead hprimed hcurrent
  obtain ⟨hresult, hnext⟩ := parse_of_sameLookahead hsame (prime_of_primed hprimed) hq
  cases more with
  | zero => exact hresult
  | succ more => exact SameAhead.after (.inl hnext) more

theorem resumes_of_not_primed (hprimed : p.primed = false) (hheld : p.held = []) (more : Nat) :
    (p.after more).parse.result = ((ofFeed (.ofAnswers p.ahead)).after more).parse.result := by
  have hahead : p.ahead = p.source.pending := by
    have hcurrent : p.current = none := by
      cases hc : p.current with
      | none => rfl
      | some t => simp [held, hc] at hheld
    simp [ahead, hheld, hcurrent]
  have hfeed : SameFeed p (ofFeed (.ofAnswers p.source.pending)) := ⟨hprimed, rfl, rfl⟩
  rw [hahead]
  exact SameAhead.after (.inr hfeed) more

/-! ## What was given and is not taken -/

/-- The tokens among the first answers of a feed. -/
def given (answers : List Answer) (asked : Nat) : List Token :=
  (answers.take asked).filterMap tokenOf?

/-- A parser on a feed of answers: the feed goes on where it was left, and what the parser holds
    are the last tokens that it was given. -/
structure Tracks (answers : List Answer) (p : Parser) : Prop where
  pending_eq : p.source.pending = answers.drop p.source.asked
  held_suffix : p.held <:+ given answers p.source.asked

/-- The last answer that the parser was given is a lexical error. -/
structure Broken (answers : List Answer) (e : LexError) (p : Parser) : Prop
    extends Tracks answers p where
  last_eq : (answers.take p.source.asked).getLast? = some (some (.error e))

theorem tracks_ofFeed (answers : List Answer) : Tracks answers (ofFeed (.ofAnswers answers)) :=
  ⟨rfl, List.suffix_refl []⟩

section Ask

variable {asked : Nat} {answer : Answer} {rest : List Answer}

theorem take_succ_of_drop (h : answer :: rest = answers.drop asked) :
    answers.take (asked + 1) = answers.take asked ++ [answer] := by
  rw [List.take_add, ← h]
  rfl

theorem given_succ_of_drop (h : answer :: rest = answers.drop asked) :
    given answers (asked + 1) = given answers asked ++ (tokenOf? answer).toList := by
  have hlast : [answer].filterMap tokenOf? = (tokenOf? answer).toList := by
    cases ht : tokenOf? answer <;> simp [ht]
  rw [given, take_succ_of_drop h, List.filterMap_append, hlast]
  rfl

theorem drop_succ_of_drop (h : answer :: rest = answers.drop asked) :
    rest = answers.drop (asked + 1) := by
  rw [← List.drop_drop, ← h]
  rfl

end Ask

theorem Tracks.shift (h : Tracks answers p) :
    Ensures shift p (fun _ q => Tracks answers q ∧ q.primed = p.primed)
      (fun failure q => ∃ e, failure = .lexical e ∧ Broken answers e q ∧ q.primed = p.primed ∧
        q.current = p.current) := by
  obtain ⟨⟨pending, asked⟩, current, next, primed⟩ := p
  have hpending : pending = answers.drop asked := h.pending_eq
  have hheld : current.toList ++ next.toList <:+ given answers asked := h.held_suffix
  -- What was next is current now, and what was given last is next.
  have hmoved : ∀ new : List Token, given answers (asked + 1) = given answers asked ++ new →
      next.toList ++ new <:+ given answers (asked + 1) := by
    intro new hgiven
    obtain ⟨front, hfront⟩ := hheld
    refine ⟨front ++ current.toList, ?_⟩
    rw [hgiven, ← hfront]
    simp only [List.append_assoc]
  match pending with
  | [] =>
    have hlength : answers.length ≤ asked := List.drop_eq_nil_iff.mp hpending.symm
    have hmore := Nat.le_succ_of_le hlength
    refine ⟨⟨(List.drop_eq_nil_of_le hmore).symm, hmoved [] ?_⟩, rfl⟩
    rw [given, given, List.take_of_length_le hlength, List.take_of_length_le hmore,
      List.append_nil]
  | none :: rest =>
    exact ⟨⟨drop_succ_of_drop hpending, hmoved [] (given_succ_of_drop hpending)⟩, rfl⟩
  | some (.ok t) :: rest =>
    exact ⟨⟨drop_succ_of_drop hpending, hmoved [t] (given_succ_of_drop hpending)⟩, rfl⟩
  | some (.error e) :: rest =>
    have hgiven : given answers (asked + 1) = given answers asked :=
      (given_succ_of_drop hpending).trans (List.append_nil _)
    refine ⟨e, rfl, ⟨⟨drop_succ_of_drop hpending, ?_⟩, ?_⟩, rfl, rfl⟩
    · rw [← hgiven] at hheld
      exact hheld
    · show (answers.take (asked + 1)).getLast? = _
      rw [take_succ_of_drop hpending, List.getLast?_concat]

theorem Tracks.prime (h : Tracks answers p) :
    Ensures prime p (fun _ q => Tracks answers q ∧ q.primed = true)
      (fun failure q => ∃ e, failure = .lexical e ∧ Broken answers e q ∧ q.primed = false) := by
  have hshift : ∀ {q : Parser}, Tracks answers q → q.primed = false →
      Ensures Parser.shift q (fun _ r => Tracks answers r ∧ r.primed = false)
        (fun failure r => ∃ e, failure = .lexical e ∧ Broken answers e r ∧ r.primed = false) := by
    intro q hq hprimed
    refine (hq.shift.mono ?_).mono_fail ?_
    · rintro _ r ⟨hr, heq⟩
      exact ⟨hr, heq.trans hprimed⟩
    · rintro _ r ⟨e, rfl, hbroken, heq, -⟩
      exact ⟨e, rfl, hbroken, heq.trans hprimed⟩
  refine Ensures.bind (m := fun a q => a = p ∧ q = p) ⟨rfl, rfl⟩ ?_
  rintro _ _ ⟨rfl, rfl⟩
  split
  · next hprimed => exact .pure ⟨h, hprimed⟩
  · next hprimed =>
    refine (hshift h (Bool.eq_false_iff.mpr hprimed)).bind ?_
    rintro _ q ⟨hq, hprimed⟩
    refine (hshift hq hprimed).bind ?_
    rintro _ r ⟨hr, -⟩
    exact ⟨⟨hr.pending_eq, hr.held_suffix⟩, rfl⟩

/-- What becomes of a parser that gets a lexical error. If it is primed, it has a current token. -/
def Interrupted (answers : List Answer) (e : LexError) (q : Parser) : Prop :=
  Broken answers e q ∧ (q.primed = true → q.current.isSome = true)

/-- What a primed parser keeps. -/
theorem bond_tracks (answers : List Answer) :
    Bond (fun p p' => p = p' ∧ Tracks answers p ∧ p.primed = true)
      (fun e q _ => Interrupted answers e q) where
  current_eq h := by rw [h.1]
  next_eq h := by rw [h.1]
  shift := by
    rintro p _ t ⟨rfl, h, hprimed⟩ hc
    have hshift := h.shift
    unfold Alongside
    cases hs : Parser.shift p with
    | ok passed q =>
      obtain ⟨hq, heq⟩ := hshift.of_ok hs
      exact .ok ⟨rfl, hq, heq.trans hprimed⟩
    | error failure q =>
      obtain ⟨e, rfl, hbroken, -, hcurrent⟩ := hshift.of_error hs
      refine .lexical ⟨hbroken, fun _ => ?_⟩
      rw [hcurrent, hc]
      rfl

/-- **After a lexical error the parser stands where it got it**, in order to go on. -/
theorem Tracks.parse (h : Tracks answers p) :
    Tracks answers p.parse.parser ∧ ∀ e, p.parse.result = .error (.lexical e) →
      Interrupted answers e p.parse.parser := by
  have hprime : Ensures Parser.prime p (fun _ q => Tracks answers q ∧ q.primed = true)
      (fun failure q => ∃ e, failure = .lexical e ∧ Interrupted answers e q) := by
    refine h.prime.mono_fail ?_
    rintro _ q ⟨e, rfl, hbroken, hprimed⟩
    exact ⟨e, rfl, hbroken, fun htrue => absurd (hprimed.symm.trans htrue) Bool.false_ne_true⟩
  rcases (bond_tracks answers).parse hprime with ⟨⟨htracks, -⟩, hnone⟩ | ⟨e, hresult, hstopped⟩
  · exact ⟨htracks, fun e he => absurd he (hnone e)⟩
  · refine ⟨hstopped.1.toTracks, ?_⟩
    intro e' he'
    obtain rfl := ParseError.lexical.inj (Except.error.inj (hresult.symm.trans he'))
    exact hstopped

theorem Tracks.after (h : Tracks answers p) (calls : Nat) : Tracks answers (p.after calls) := by
  induction calls generalizing p with
  | zero => exact h
  | succ calls ih => exact ih h.parse.1

/-! ## Main result -/

/-- **After a lexical error a parser goes on with what is ahead of it**, in the next parse and in
    all further ones: the tokens that it was given last and has not taken, an end in view behind
    the current one of them, and the answers behind the error. It has to be primed for that, or
    to hold no token. -/
theorem parse_resumes {e : LexError} (calls : Nat)
    (h : ((ofFeed (.ofAnswers answers)).after calls).parse.result = .error (.lexical e)) :
    let p := ((ofFeed (.ofAnswers answers)).after calls).parse.parser
    ((answers.take p.source.asked).getLast? = some (some (.error e)) ∧
      p.source.pending = answers.drop p.source.asked ∧
      p.held <:+ given answers p.source.asked) ∧
    (p.primed = true ∨ p.held = [] → ∀ more : Nat,
      (p.after more).parse.result = ((ofFeed (.ofAnswers p.ahead)).after more).parse.result) := by
  intro p
  obtain ⟨-, hbroken⟩ := ((tracks_ofFeed answers).after calls).parse
  obtain ⟨⟨htracks, hlast⟩, hcurrent⟩ := hbroken e h
  refine ⟨⟨hlast, htracks.pending_eq, htracks.held_suffix⟩, ?_⟩
  intro hready more
  cases hprimed : p.primed with
  | true => exact resumes_of_primed hprimed (hcurrent hprimed) more
  | false =>
    have hheld : p.held = [] := hready.resolve_left (by rw [hprimed]; exact Bool.false_ne_true)
    exact resumes_of_not_primed hprimed hheld more

/-- The sum that an error breaks off is read in the next parse, with both tokens that were held. -/
theorem parse_resumes_sum :
    let e : LexError := ⟨.invalidToken '$', ⟨4, 5⟩⟩
    let a : Token := .name "a" ⟨0, 1⟩
    let plus : Token := .symbol .plus ⟨2, 3⟩
    let fresh := ofFeed (.ofAnswers [some (.ok a), some (.ok plus), some (.error e),
      some (.ok (.name "b" ⟨6, 7⟩)), some (.ok .endOfFile)])
    fresh.parse.result = .error (.lexical e) ∧ fresh.parse.parser.held = [a, plus] ∧
      fresh.parse.parser.parse.result
        = .ok ⟨[.binary (.ident ⟨"a"⟩) .add (.ident ⟨"b"⟩)]⟩ := by
  intro e a plus fresh
  have herror : fresh.parse.result = .error (.lexical e) := by decide +kernel
  obtain ⟨-, hresumes⟩ := parse_resumes 0 herror
  refine ⟨herror, by decide +kernel, ?_⟩
  exact (hresumes (.inl (by decide +kernel)) 0).trans (by decide +kernel)

/-- The end that is in view is ahead of the parser, too. Without it the next parse would go on
    behind the gap. -/
theorem not_resumes_on_held_alone :
    ¬ ∀ (answers : List Answer) (calls : Nat) (e : LexError),
      ((ofFeed (.ofAnswers answers)).after calls).parse.result = .error (.lexical e) →
      let p := ((ofFeed (.ofAnswers answers)).after calls).parse.parser
      p.parse.result = (ofFeed (.ofAnswers
        (p.held.map (fun t => some (.ok t)) ++ p.source.pending))).parse.result := by
  intro h
  have hresult := h [some (.ok (.name "a" ⟨0, 1⟩)), none,
    some (.error ⟨.invalidToken '$', ⟨2, 3⟩⟩), some (.ok (.symbol .newLine ⟨3, 4⟩)),
    some (.ok (.name "b" ⟨4, 5⟩)), some (.ok .endOfFile)] 0 ⟨.invalidToken '$', ⟨2, 3⟩⟩
    (by decide +kernel)
  exact absurd hresult (by decide +kernel)

end Parser

end FormulaSyntax
