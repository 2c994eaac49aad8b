import FormulaSyntax.Failure
import FormulaSyntax.Feed
import FormulaSyntax.Token.Basic

/-!
# The parser's lookahead

A `Parser` reads tokens from a feed on demand and holds two of them, the current one and the next.
It is primed, that is, its two places are filled, when it is first used and not before.

`shift` moves the next token into the current place and fills the place that is free by asking
the feed. **The feed is asked first**: if its answer is a lexical error nothing moves, and no
token that was taken from the feed is lost.

`upcoming` is the view for statements: the tokens still to be read in front of the next gap, error
or end. Every loop of the parser ends because `upcoming` gets shorter.
-/

set_option autoImplicit false

namespace FormulaSyntax

/-- A feed of tokens that is read with two tokens of lookahead. -/
structure Parser where
  source : Feed (Except LexError Token)
  current : Option Token
  next : Option Token
  primed : Bool

/-- A step of parsing: it may fail, and it leaves the parser changed either way. -/
abbrev ParseM := EStateM ParseError Parser

namespace Parser

/-- A parser on a feed of tokens. Nothing is asked for yet. -/
def ofFeed (source : Feed (Except LexError Token)) : Parser := ⟨source, none, none, false⟩

def currentKind? (p : Parser) : Option TokenKind := p.current.map Token.kind

def nextKind? (p : Parser) : Option TokenKind := p.next.map Token.kind

/-- Whether there is nothing to read: no token, or the end marker. -/
def atEnd (p : Parser) : Bool :=
  match p.current with
  | none => true
  | some t => t.isEndOfFile

/-- The tokens in front of the first gap or error. -/
def tokensUpTo : List (Option (Except LexError Token)) → List Token
  | some (.ok t) :: rest => t :: tokensUpTo rest
  | _ => []

/-- The tokens still to be read in front of the next gap, error or end. -/
def upcoming (p : Parser) : List Token :=
  match p.current, p.next with
  | none, _ => []
  | some t, none => [t]
  | some t, some u => t :: u :: tokensUpTo p.source.pending

/-- Passes the current token on and asks for another one. -/
def shift : ParseM (Option Token) := fun p =>
  match p.source.ask with
  | (some (.error e), source) => .error (.lexical e) { p with source }
  | (some (.ok t), source) =>
    .ok p.current { p with source, current := p.next, next := some t }
  | (none, source) => .ok p.current { p with source, current := p.next, next := none }

/-- Passes on a current token that was seen already. -/
def bump : ParseM Token := fun p =>
  match shift p with
  | .ok (some t) p' => .ok t p'
  | .ok none p' => .error (.internal .missingToken) p'
  | .error e p' => .error e p'

/-- Fills the two places of a parser that has not been used. If the feed gives an error instead of
    a token, the parser stays to be primed. It keeps a token that it was given already, but only
    until it is primed, since then both places are filled anew. -/
def prime : ParseM Unit := do
  unless (← get).primed do
    let _ ← shift
    let _ ← shift
    modify fun p => { p with primed := true }

/-! ## What a successful step of parsing consists of -/

/-- A block that succeeds takes apart into its lines, each of which succeeds. -/
theorem bind_eq_ok {α β : Type} {x : ParseM α} {f : α → ParseM β} {p q : Parser} {b : β} :
    (x >>= f) p = .ok b q ↔ ∃ a p', x p = .ok a p' ∧ f a p' = .ok b q := by
  simp only [bind, EStateM.bind]
  cases h : x p with
  | ok a p' =>
    constructor
    · exact fun hf => ⟨a, p', rfl, hf⟩
    · rintro ⟨a', p'', heq, hf⟩
      obtain ⟨rfl, rfl⟩ := EStateM.Result.ok.inj heq
      exact hf
  | error e p' =>
    constructor
    · exact fun hf => nomatch hf
    · rintro ⟨_, _, heq, _⟩
      exact nomatch heq

theorem pure_eq_ok {α : Type} {a b : α} {p q : Parser} :
    (pure a : ParseM α) p = .ok b q ↔ a = b ∧ p = q := by
  simp only [pure, EStateM.pure, EStateM.Result.ok.injEq]

theorem throw_ne_ok {α : Type} {e : ParseError} {b : α} {p q : Parser} :
    (throw e : ParseM α) p ≠ .ok b q := fun h => nomatch h

/-! ## Shifting on the view -/

theorem eq_current_of_shift {p p' : Parser} {t : Option Token} (h : shift p = .ok t p') :
    t = p.current := by
  unfold shift at h
  split at h
  · exact nomatch h
  · exact (EStateM.Result.ok.inj h).1.symm
  · exact (EStateM.Result.ok.inj h).1.symm

/-- A shift that succeeds has passed the current token and lost none, since the next one moves up
    and the feed gives another. -/
theorem upcoming_eq_cons_of_shift {p p' : Parser} {t : Token} {passed : Option Token}
    (hc : p.current = some t) (h : shift p = .ok passed p') :
    p.upcoming = t :: p'.upcoming := by
  obtain ⟨⟨pending, asked⟩, current, next, primed⟩ := p
  obtain rfl : current = some t := hc
  match pending, h with
  | [], h =>
    obtain ⟨-, rfl⟩ := EStateM.Result.ok.inj h
    cases next <;> rfl
  | none :: rest, h =>
    obtain ⟨-, rfl⟩ := EStateM.Result.ok.inj h
    cases next <;> rfl
  | some (.ok u) :: rest, h =>
    obtain ⟨-, rfl⟩ := EStateM.Result.ok.inj h
    cases next <;> rfl
  | some (.error e) :: rest, h => exact nomatch h

theorem upcoming_eq_cons_of_bump {p p' : Parser} {t : Token} (h : bump p = .ok t p') :
    p.current = some t ∧ p.upcoming = t :: p'.upcoming := by
  unfold bump at h
  split at h
  · next passed p'' hs =>
    obtain ⟨rfl, rfl⟩ := EStateM.Result.ok.inj h
    have hc : p.current = some passed := (eq_current_of_shift hs).symm
    exact ⟨hc, upcoming_eq_cons_of_shift hc hs⟩
  · exact nomatch h
  · exact nomatch h

end Parser

end FormulaSyntax
