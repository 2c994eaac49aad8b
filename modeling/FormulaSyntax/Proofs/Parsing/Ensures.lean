import FormulaSyntax.Formula.Step

/-!
# Reasoning about steps of parsing

A step of parsing may fail, and leaves the parser changed either way. `Ensures x p post fail`
says how `x` ends from the parser `p`: a result meets `post`, a failure meets `fail`. The rules
below take a `do` block apart line by line, so a proof about it names the parser between two
lines and never opens the monad.

`Faultless` is the condition on failures that matters most: the parser is not at odds with
itself.
-/

set_option autoImplicit false

namespace FormulaSyntax

namespace Parser

/-- How a step of parsing ends. -/
def Ensures {α : Type} (x : ParseM α) (p : Parser) (post : α → Parser → Prop)
    (fail : ParseError → Parser → Prop) : Prop :=
  match x p with
  | .ok a q => post a q
  | .error e q => fail e q

/-- A failure that is the source's and not the parser's. -/
def Faultless (e : ParseError) (_ : Parser) : Prop := e.isInternal = false

section Rules

variable {α β : Type} {p : Parser} {fail : ParseError → Parser → Prop}

/-- A run that is known to have ended in one way is judged by that way alone. -/
theorem Ensures.of_ok {x : ParseM α} {post : α → Parser → Prop} {a : α} {q : Parser}
    (h : Ensures x p post fail) (hx : x p = .ok a q) : post a q := by
  simpa only [Ensures, hx] using h

theorem Ensures.of_error {x : ParseM α} {post : α → Parser → Prop} {e : ParseError} {q : Parser}
    (h : Ensures x p post fail) (hx : x p = .error e q) : fail e q := by
  simpa only [Ensures, hx] using h

theorem Ensures.mono {x : ParseM α} {post post' : α → Parser → Prop}
    (h : Ensures x p post fail) (himp : ∀ a q, post a q → post' a q) :
    Ensures x p post' fail := by
  cases hx : x p with
  | ok a q => simpa only [Ensures, hx] using himp a q (h.of_ok hx)
  | error e q => simpa only [Ensures, hx] using h.of_error hx

theorem Ensures.mono_fail {x : ParseM α} {post : α → Parser → Prop}
    {fail' : ParseError → Parser → Prop} (h : Ensures x p post fail)
    (himp : ∀ e q, fail e q → fail' e q) : Ensures x p post fail' := by
  cases hx : x p with
  | ok a q => simpa only [Ensures, hx] using h.of_ok hx
  | error e q => simpa only [Ensures, hx] using himp e q (h.of_error hx)

/-- What follows a part may know, besides what the part ensures, that it ran. -/
theorem Ensures.bind_run {x : ParseM α} {f : α → ParseM β} {m : α → Parser → Prop}
    {post : β → Parser → Prop} (hx : Ensures x p m fail)
    (hf : ∀ a q, x p = .ok a q → m a q → Ensures (f a) q post fail) :
    Ensures (x >>= f) p post fail := by
  cases h : x p with
  | ok a q =>
    have hfa := hf a q h (hx.of_ok h)
    simpa only [Ensures, Bind.bind, EStateM.bind, h] using hfa
  | error e q => simpa only [Ensures, Bind.bind, EStateM.bind, h] using hx.of_error h

theorem Ensures.bind {x : ParseM α} {f : α → ParseM β} {m : α → Parser → Prop}
    {post : β → Parser → Prop} (hx : Ensures x p m fail)
    (hf : ∀ a q, m a q → Ensures (f a) q post fail) : Ensures (x >>= f) p post fail :=
  hx.bind_run fun a q _ => hf a q

theorem Ensures.pure {post : α → Parser → Prop} {a : α} (h : post a p) :
    Ensures (pure a) p post fail := h

theorem Ensures.throw {post : α → Parser → Prop} {e : ParseError} (h : fail e p) :
    Ensures (throw e) p post fail := h

theorem Ensures.map_some {x : ParseM α} {post : Option α → Parser → Prop}
    (h : Ensures x p (fun a => post (some a)) fail) : Ensures (some <$> x) p post fail := by
  rw [map_eq_pure_bind]
  exact h.bind fun a q ha => .pure ha

/-- What the stacks cannot refuse does not end the parse. -/
theorem Ensures.orFault {r : Except Fault α} {post : α → Parser → Prop} {a : α} (hr : r = .ok a)
    (h : post a p) : Ensures (orFault r) p post fail := by
  subst hr
  exact h

end Rules

/-! ## Taking tokens

A token is taken only where it was seen, so there is one: `bump` cannot miss it. The feed may
still have an error behind it, which ends the parse then and there. -/

/-- The only failure of a shift is an error that the feed gave. -/
theorem faultless_of_shift {p q : Parser} {e : ParseError} (h : shift p = .error e q) :
    Faultless e q := by
  unfold shift at h
  split at h
  · rw [← (EStateM.Result.error.inj h).1]
    rfl
  · exact nomatch h
  · exact nomatch h

theorem ensures_shift_any (p : Parser) : Ensures shift p (fun _ _ => True) Faultless := by
  cases hs : shift p with
  | ok passed q => simp only [Ensures, hs]
  | error e q => simpa only [Ensures, hs] using faultless_of_shift hs

/-- Where a token was seen, a shift passes it on and leaves those behind it. -/
theorem ensures_shift {p : Parser} {t : Token} (hc : p.current = some t) :
    Ensures shift p (fun passed q => passed = some t ∧ q.current = p.next ∧
      p.upcoming = t :: q.upcoming) Faultless := by
  cases hs : shift p with
  | ok passed q =>
    have hpassed : passed = some t := (eq_current_of_shift hs).trans hc
    have hnext : q.current = p.next := by
      unfold shift at hs
      split at hs
      · exact nomatch hs
      · rw [← (EStateM.Result.ok.inj hs).2]
      · rw [← (EStateM.Result.ok.inj hs).2]
    simpa only [Ensures, hs] using ⟨hpassed, hnext, upcoming_eq_cons_of_shift hc hs⟩
  | error e q => simpa only [Ensures, hs] using faultless_of_shift hs

/-- Where a token was seen, taking it is nothing but a shift. -/
theorem Ensures.bump_of_shift {p : Parser} {t : Token} {post : Parser → Prop}
    {fail : ParseError → Parser → Prop} (hc : p.current = some t)
    (h : Ensures shift p (fun _ => post) fail) :
    Ensures bump p (fun taken q => taken = t ∧ post q) fail := by
  cases hs : shift p with
  | ok passed q =>
    obtain rfl := (eq_current_of_shift hs).trans hc
    simpa only [Ensures, bump, hs] using ⟨trivial, h.of_ok hs⟩
  | error e q => simpa only [Ensures, bump, hs] using h.of_error hs

theorem ensures_bump {p : Parser} {t : Token} (hc : p.current = some t) :
    Ensures bump p (fun taken q => taken = t ∧ q.current = p.next ∧
      p.upcoming = t :: q.upcoming) Faultless :=
  .bump_of_shift hc ((ensures_shift hc).mono fun _ _ h => h.2)

theorem upcoming_head? (p : Parser) : p.upcoming.head? = p.current := by
  unfold upcoming
  split <;> simp [*]

theorem current_of_kind {p : Parser} {kind : TokenKind} (h : p.currentKind? = some kind) :
    ∃ t, p.current = some t ∧ t.kind = kind := Option.map_eq_some_iff.mp h

theorem lexeme_of_kind_symbol {t : Token} {s : Symbol} (h : t.kind = .symbol s) :
    t.lexeme = .symbol s := by
  cases hl : t.lexeme with
  | symbol s' =>
    simp only [Token.kind, Lexeme.kind, hl, TokenKind.symbol.injEq] at h
    rw [h]
  | name | number | string | truth => simp [Token.kind, Lexeme.kind, hl] at h

end Parser

end FormulaSyntax
