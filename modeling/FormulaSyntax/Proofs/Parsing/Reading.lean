import FormulaSyntax.Proofs.Parsing.AllItems
import FormulaSyntax.Proofs.Parsing.Places

/-!
# What a part of the parser reads

A part of the parser takes some tokens, looks at the one behind them, and comes to a result. All
that follows it, and where the tokens stand, plays no part. `Reads x taken rest r` says so: on
**every feed that goes on in this way**, `x` takes `taken` in front of something like `rest` and
comes to `r`. The tokens may be moved on by any number `d` of characters, and then what `x` holds
and what it comes to are moved on as well; that is why `x` and `r` depend on `d`.

Two kinds of feeds are told apart by the parser's two tokens of lookahead.

* `follow`: behind the tokens taken there is something like the first token of `rest`, and no
  lexical error right behind it. Any end is like any other: the end marker, a gap, nothing at all.
* `stop`: a lexical error comes so early that `x` has to ask for it. Then `x` fails with it.

The rules follow the `do` notation. `Decides` adds what most parts of the parser need: on given
tokens the part reads some of them, and comes to a good result or to a bad one.
-/

set_option autoImplicit false

namespace FormulaSyntax

namespace Parser

/-! ## Parsers on answers -/

/-- What a feed answers: nothing, a token or a lexical error. -/
abbrev Answer := Option (Except LexError Token)

def tokenOf? : Answer → Option Token
  | some (.ok t) => some t
  | some (.error _) | none => none

/-- A primed parser with answers to come. -/
def onAnswers (answers : List Answer) (asked : Nat) : Parser where
  source := ⟨answers.drop 2, asked⟩
  current := answers.head?.bind tokenOf?
  next := answers[1]?.bind tokenOf?
  primed := true

/-- The answers that are tokens, moved on. -/
def moved (d : Nat) (tokens : List Token) : List Answer := tokens.map fun t => some (.ok (t.move d))

theorem onAnswers_moved_zero (tokens : List Token) (asked : Nat) :
    onAnswers (moved 0 tokens) asked = onTokens tokens asked := by
  match tokens with
  | [] | [_] => rfl
  | _ :: _ :: _ => rfl

/-- Moving answers is moving their tokens. -/
theorem moved_eq_moved_zero (d : Nat) (tokens : List Token) :
    moved d tokens = moved 0 (tokens.map (Token.move d)) := by
  rw [moved, moved, List.map_map]
  rfl

theorem moved_append (d : Nat) (first second : List Token) :
    moved d (first ++ second) = moved d first ++ moved d second := List.map_append

/-- The two answers to come first are no errors. -/
def Clear (answers : List Answer) : Prop := ∀ e, some (.error e) ∉ answers.take 2

/-- Tokens in front of the others are no errors, so what is clear stays clear behind them. -/
theorem clear_moved {d : Nat} {tokens : List Token} {others : List Answer} (h : Clear others) :
    Clear (moved d tokens ++ others) := by
  intro e hmem
  match tokens, hmem with
  | [], hmem => exact h e hmem
  | [t], hmem =>
    cases others with
    | nil => simp [moved] at hmem
    | cons answer others =>
      have hanswer : some (.error e) = answer := by simpa [moved] using hmem
      exact h e (by simp [hanswer])
  | t :: u :: tokens, hmem => simp [moved] at hmem

theorem clear_moved_of_length {d : Nat} {tokens : List Token} (h : 2 ≤ tokens.length)
    (others : List Answer) : Clear (moved d tokens ++ others) := by
  intro e hmem
  match tokens, h with
  | t :: u :: tokens, _ => simp [moved] at hmem

/-- A fresh parser is primed by the first two answers, if these are no errors. -/
theorem prime_ofAnswers {answers : List Answer} (h : Clear answers) :
    prime (ofFeed (.ofAnswers answers)) = .ok () (onAnswers answers 2) := by
  match answers, h with
  | [], _ | [none], _ | [some (.ok _)], _ => rfl
  | none :: none :: _, _ | none :: some (.ok _) :: _, _ => rfl
  | some (.ok _) :: none :: _, _ | some (.ok _) :: some (.ok _) :: _, _ => rfl
  | some (.error e) :: _, h => exact absurd (by simp) (h e)
  | _ :: some (.error e) :: _, h => exact absurd (by simp) (h e)

/-- A parser on answers goes on to the parser on those that are left. -/
theorem shift_onAnswers {t : Token} {others : List Answer} (h : Clear others) (asked : Nat) :
    shift (onAnswers (some (.ok t) :: others) asked)
      = .ok (some t) (onAnswers others (asked + 1)) := by
  match others, h with
  | [], _ | [_], _ => rfl
  | _ :: none :: _, _ | _ :: some (.ok _) :: _, _ => rfl
  | _ :: some (.error e) :: _, h => exact absurd (by simp) (h e)

theorem shift_onAnswers_error (first second : Answer) (e : LexError) (more : List Answer)
    (asked : Nat) :
    ∃ q, shift (onAnswers (first :: second :: some (.error e) :: more) asked)
      = .error (.lexical e) q := ⟨_, rfl⟩

theorem bump_of_shift {t : Token} {p q : Parser} (h : shift p = .ok (some t) q) :
    bump p = .ok t q := by
  simp only [bump, h]

theorem bump_of_error {e : ParseError} {p q : Parser} (h : shift p = .error e q) :
    bump p = .error e q := by
  simp only [bump, h]

/-! ## Tokens that the parser cannot tell apart -/

/-- There is no token, or it is the end marker. -/
def Ended (seen : Option Token) : Prop := ∀ t, seen = some t → t.isEndOfFile = true

/-- The same token but for its place, or an end in both cases. -/
inductive Alike (d : Nat) : Option Token → Option Token → Prop
  | token {t : Token} : t.isEndOfFile = false → Alike d (some t) (some (t.move d))
  | ended {seen seen' : Option Token} : Ended seen → Ended seen' → Alike d seen seen'

theorem ended_none : Ended none := nofun

theorem ended_some {t : Token} (h : t.isEndOfFile = true) : Ended (some t) := by
  rintro u ⟨⟩
  exact h

theorem alike_move (d : Nat) (seen : Option Token) : Alike d seen (seen.map (Token.move d)) := by
  cases seen with
  | none => exact .ended ended_none ended_none
  | some t =>
    cases ht : t.isEndOfFile with
    | true => exact .ended (ended_some ht) (ended_some ht)
    | false => exact .token ht

theorem Alike.of_token {d : Nat} {t : Token} {seen : Option Token} (h : Alike d (some t) seen)
    (ht : t.isEndOfFile = false) : seen = some (t.move d) := by
  cases h with
  | token => rfl
  | ended hended =>
    rw [hended t rfl] at ht
    exact nomatch ht

theorem Alike.of_ended {d : Nat} {seen seen' : Option Token} (h : Alike d seen seen')
    (hended : Ended seen) : Ended seen' := by
  cases h with
  | @token t ht =>
    rw [hended t rfl] at ht
    exact nomatch ht
  | ended _ h => exact h

@[simp] theorem head?_moved (d : Nat) (tokens : List Token) :
    (moved d tokens).head?.bind tokenOf? = tokens.head?.map (Token.move d) := by
  cases tokens <;> rfl

/-! ## Reading -/

variable {α β : Type}

structure Reads (x : Nat → ParseM α) (taken rest : List Token) (r : Nat → Except ParseError α) :
    Prop where
  inner : ∀ t ∈ taken, t.isEndOfFile = false
  follow : ∀ (d asked : Nat) (others : List Answer), Clear others →
    Alike d rest.head? (others.head?.bind tokenOf?) →
      x d (onAnswers (moved d taken ++ others) asked)
        = leaving (r d) (onAnswers others (asked + taken.length))
  stop : ∀ (d asked : Nat) (short : List Token) (e : LexError) (more : List Answer),
    short <+: taken ++ rest → 2 ≤ short.length → short.length < taken.length + 2 →
      ∃ q, x d (onAnswers (moved d short ++ some (.error e) :: more) asked) = .error (.lexical e) q

namespace Reads

variable {x y : Nat → ParseM α} {taken taken' rest : List Token} {r : Nat → Except ParseError α}

/-- What takes nothing and looks at nothing. -/
theorem of_eq (h : ∀ d q, x d q = leaving (r d) q) : Reads x [] rest r where
  inner := nofun
  follow d _ _ _ _ := h d _
  stop _ _ _ _ _ _ hle hlt := absurd hle (Nat.not_le_of_lt hlt)

theorem pure (a : Nat → α) : Reads (fun d => pure (a d)) [] rest (fun d => .ok (a d)) :=
  of_eq fun _ _ => rfl

theorem throw (e : Nat → ParseError) :
    Reads (α := α) (fun d => throw (e d)) [] rest (fun d => .error (e d)) :=
  of_eq fun _ _ => rfl

theorem orFault {s : Nat → Except Fault α} {a : Nat → α} (h : ∀ d, s d = .ok (a d)) :
    Reads (fun d => orFault (s d)) [] rest (fun d => .ok (a d)) := by
  apply of_eq
  intro d q
  rw [h d]
  rfl

theorem shift {t : Token} (ht : t.isEndOfFile = false) :
    Reads (fun _ => shift) [t] rest (fun d => .ok (some (t.move d))) where
  inner u hu := by
    rw [List.mem_singleton.mp hu]
    exact ht
  follow d asked others hclear _ := shift_onAnswers hclear asked
  stop d asked short e more hshort hle hlt := by
    match short, hle, hlt with
    | [first, second], _, _ => exact shift_onAnswers_error _ _ e more asked

theorem bump {t : Token} (ht : t.isEndOfFile = false) :
    Reads (fun _ => bump) [t] rest (fun d => .ok (t.move d)) where
  inner u hu := by
    rw [List.mem_singleton.mp hu]
    exact ht
  follow d asked others hclear hlike :=
    bump_of_shift ((shift ht).follow d asked others hclear hlike)
  stop d asked short e more hshort hle hlt := by
    obtain ⟨q, hq⟩ := (shift ht).stop d asked short e more hshort hle hlt
    exact ⟨q, bump_of_error hq⟩

theorem head?_of_prefix {short tokens : List Token} (h : short <+: tokens) (hne : short ≠ []) :
    short.head? = tokens.head? := by
  obtain ⟨others, rfl⟩ := h
  cases short with
  | nil => exact absurd rfl hne
  | cons t short => rfl

/-- One part behind another: what the second one reads comes right behind what the first one
    takes. -/
theorem bind {f : Nat → α → ParseM β} {a : Nat → α} {s : Nat → Except ParseError β}
    (hx : Reads x taken (taken' ++ rest) (fun d => .ok (a d)))
    (hf : Reads (fun d => f d (a d)) taken' rest s) :
    Reads (fun d => x d >>= f d) (taken ++ taken') rest s where
  inner t ht := (List.mem_append.mp ht).elim (hx.inner t) (hf.inner t)
  follow d asked others hclear hlike := by
    have hhead : Alike d (taken' ++ rest).head?
        ((moved d taken' ++ others).head?.bind tokenOf?) := by
      cases taken' with
      | nil => exact hlike
      | cons t taken' => exact .token (hf.inner t List.mem_cons_self)
    have hfirst := hx.follow d asked (moved d taken' ++ others) (clear_moved hclear) hhead
    rw [← List.append_assoc, ← moved_append] at hfirst
    rw [bind_of_ok hfirst, hf.follow d _ others hclear hlike, List.length_append, Nat.add_assoc]
  stop d asked short e more hshort hle hlt := by
    rw [List.append_assoc] at hshort
    by_cases hearly : short.length < taken.length + 2
    · obtain ⟨q, hq⟩ := hx.stop d asked short e more hshort hle hearly
      exact ⟨q, bind_of_error hq⟩
    · -- The first part is through, and the second one meets the error.
      have htaken : taken <+: short :=
        List.prefix_of_prefix_length_le (List.prefix_append _ _) hshort (by omega)
      obtain ⟨behind, rfl⟩ := htaken
      rw [List.prefix_append_right_inj] at hshort
      rw [List.length_append] at hle hlt hearly
      rw [List.length_append] at hlt
      have hlength : 2 ≤ behind.length := by omega
      have hne : behind ≠ [] := by
        rintro rfl
        exact absurd hlength (by decide)
      have hhead : Alike d (taken' ++ rest).head?
          ((moved d behind ++ some (.error e) :: more).head?.bind tokenOf?) := by
        cases behind with
        | nil => exact absurd rfl hne
        | cons t behind =>
          rw [← head?_of_prefix hshort hne]
          exact alike_move d (some t)
      have hfirst := hx.follow d asked _ (clear_moved_of_length hlength _) hhead
      rw [← List.append_assoc, ← moved_append] at hfirst
      obtain ⟨q, hq⟩ := hf.stop d _ behind e more hshort hlength (by omega)
      exact ⟨q, by rw [bind_of_ok hfirst, hq]⟩

/-- A second part that takes nothing. -/
theorem bind_idle {f : Nat → α → ParseM β} {a : Nat → α} {s : Nat → Except ParseError β}
    (hx : Reads x taken rest (fun d => .ok (a d))) (hf : Reads (fun d => f d (a d)) [] rest s) :
    Reads (fun d => x d >>= f d) taken rest s := by
  rw [← List.append_nil taken]
  exact bind hx hf

theorem bind_error {f : Nat → α → ParseM β} {e : Nat → ParseError}
    (hx : Reads x taken rest (fun d => .error (e d))) :
    Reads (fun d => x d >>= f d) taken rest (fun d => .error (e d)) where
  inner := hx.inner
  follow d asked others hclear hlike := bind_of_error (hx.follow d asked others hclear hlike)
  stop d asked short e more hshort hle hlt := by
    obtain ⟨q, hq⟩ := hx.stop d asked short e more hshort hle hlt
    exact ⟨q, bind_of_error hq⟩

/-- What is read of a list of tokens, also of one that goes on in another way. -/
theorem on_tokens_of_alike (h : Reads x taken rest r) {d : Nat} {others : List Token}
    (hlike : Alike d rest.head? others.head?) (asked : Nat) :
    x d (onTokens (taken.map (Token.move d) ++ others) asked)
      = leaving (r d) (onTokens others (asked + taken.length)) := by
  have hclear : Clear (moved 0 others) := by
    rw [← List.append_nil (moved 0 others)]
    exact clear_moved nofun
  have hread := h.follow d asked (moved 0 others) hclear ?_
  · rwa [moved_eq_moved_zero, ← moved_append, onAnswers_moved_zero, onAnswers_moved_zero] at hread
  · rw [head?_moved]
    cases others with
    | nil => exact hlike
    | cons t others => exact hlike

theorem on_tokens (h : Reads x taken rest r) (asked : Nat) :
    x 0 (onTokens (taken ++ rest) asked)
      = leaving (r 0) (onTokens rest (asked + taken.length)) := by
  have hlike : Alike 0 rest.head? rest.head? := by
    have hmove := alike_move 0 rest.head?
    cases rest with
    | nil => exact hmove
    | cons t rest => exact hmove
  have hread := h.on_tokens_of_alike hlike asked
  rwa [Token.map_move_zero] at hread

/-- A choice that is made by the current token. -/
theorem congr (h : ∀ d q, Alike d (taken ++ rest).head? q.current → x d q = y d q)
    (hy : Reads y taken rest r) : Reads x taken rest r where
  inner := hy.inner
  follow d asked others hclear hlike := by
    rw [h d _ ?_, hy.follow d asked others hclear hlike]
    cases taken with
    | nil => exact hlike
    | cons t taken => exact .token (hy.inner t List.mem_cons_self)
  stop d asked short e more hshort hle hlt := by
    rw [h d _ ?_]
    · exact hy.stop d asked short e more hshort hle hlt
    · cases short with
      | nil => exact absurd hle (by decide)
      | cons t short =>
        rw [← head?_of_prefix hshort nofun]
        exact alike_move d (some t)

/-- A choice that is made by both tokens in view, of which at least one is taken. -/
theorem congr_pair (htaken : taken ≠ [])
    (h : ∀ d q, Alike d (taken ++ rest).head? q.current → Alike d (taken ++ rest)[1]? q.next →
      x d q = y d q) (hy : Reads y taken rest r) : Reads x taken rest r where
  inner := hy.inner
  follow d asked others hclear hlike := by
    rw [h d _ ?_ ?_, hy.follow d asked others hclear hlike]
    · match taken, htaken with
      | t :: taken, _ => exact .token (hy.inner t List.mem_cons_self)
    · match taken, htaken with
      | [t], _ =>
        rw [List.head?_eq_getElem?, List.head?_eq_getElem?] at hlike
        exact hlike
      | _ :: u :: taken, _ => exact .token (hy.inner u (by simp))
  stop d asked short e more hshort hle hlt := by
    rw [h d _ ?_ ?_]
    · exact hy.stop d asked short e more hshort hle hlt
    · match short, hle with
      | t :: short, _ =>
        rw [← head?_of_prefix hshort nofun]
        exact alike_move d (some t)
    · match short, hle with
      | _ :: u :: short, _ =>
        obtain ⟨others, hothers⟩ := hshort
        rw [← hothers]
        exact alike_move d (some u)

end Reads

/-! ## Deciding -/

/-- On these tokens `x` takes some, and comes to a good result in front of the others or to an
    error. -/
def Decides (x : Nat → ParseM α) (tokens : List Token)
    (good : List Token → List Token → (Nat → α) → Prop) (bad : List Token → Prop) : Prop :=
  ∃ taken rest, tokens = taken ++ rest ∧
    ((∃ a, Reads x taken rest (fun d => .ok (a d)) ∧ good taken rest a) ∨
      ∃ e : ParseError, Reads x taken rest (fun d => .error (e.move d)) ∧ bad taken)

namespace Decides

variable {x y : Nat → ParseM α} {tokens : List Token}
  {good good' : List Token → List Token → (Nat → α) → Prop} {bad bad' : List Token → Prop}

theorem pure {a : Nat → α} (h : good [] tokens a) : Decides (fun d => pure (a d)) tokens good bad :=
  ⟨[], tokens, rfl, .inl ⟨a, .pure a, h⟩⟩

theorem throw (e : ParseError) (h : bad []) :
    Decides (fun d => throw (e.move d)) tokens good bad :=
  ⟨[], tokens, rfl, .inr ⟨e, .throw fun d => e.move d, h⟩⟩

/-- A part that is known to read a part of the tokens. -/
theorem of_reads {taken rest : List Token} {a : Nat → α}
    (hread : Reads x taken rest (fun d => .ok (a d))) (h : good taken rest a) :
    Decides x (taken ++ rest) good bad :=
  ⟨taken, rest, rfl, .inl ⟨a, hread, h⟩⟩

theorem mono (h : Decides x tokens good bad)
    (hgood : ∀ taken rest a, tokens = taken ++ rest → good taken rest a → good' taken rest a)
    (hbad : ∀ taken rest, tokens = taken ++ rest → bad taken → bad' taken) :
    Decides x tokens good' bad' := by
  obtain ⟨taken, rest, htokens, ⟨a, hread, ha⟩ | ⟨e, hread, he⟩⟩ := h
  · exact ⟨taken, rest, htokens, .inl ⟨a, hread, hgood taken rest a htokens ha⟩⟩
  · exact ⟨taken, rest, htokens, .inr ⟨e, hread, hbad taken rest htokens he⟩⟩

/-- A good result is one on the list of tokens, too. -/
theorem with_run (h : Decides x tokens good bad) :
    Decides x tokens
      (fun taken rest a => good taken rest a ∧
        ∀ asked, x 0 (onTokens tokens asked) = .ok (a 0) (onTokens rest (asked + taken.length)))
      bad := by
  obtain ⟨taken, rest, rfl, ⟨a, hread, ha⟩ | ⟨e, hread, he⟩⟩ := h
  · exact ⟨taken, rest, rfl, .inl ⟨a, hread, ha, hread.on_tokens⟩⟩
  · exact ⟨taken, rest, rfl, .inr ⟨e, hread, he⟩⟩

theorem bind {f : Nat → α → ParseM β} {good' : List Token → List Token → (Nat → β) → Prop}
    (hx : Decides x tokens good bad) (hbad : ∀ taken, bad taken → bad' taken)
    (hf : ∀ taken rest a, tokens = taken ++ rest → good taken rest a →
      Decides (fun d => f d (a d)) rest (fun more rest b => good' (taken ++ more) rest b)
        (fun more => bad' (taken ++ more))) :
    Decides (fun d => x d >>= f d) tokens good' bad' := by
  obtain ⟨taken, rest, htokens, ⟨a, hread, ha⟩ | ⟨e, hread, he⟩⟩ := hx
  · obtain ⟨more, rest', rfl, ⟨b, hread', hb⟩ | ⟨e, hread', he⟩⟩ := hf taken rest a htokens ha
    · rw [← List.append_assoc] at htokens
      exact ⟨taken ++ more, rest', htokens, .inl ⟨b, hread.bind hread', hb⟩⟩
    · rw [← List.append_assoc] at htokens
      exact ⟨taken ++ more, rest', htokens, .inr ⟨e, hread.bind hread', he⟩⟩
  · exact ⟨taken, rest, htokens, .inr ⟨e, hread.bind_error, hbad taken he⟩⟩

theorem bump_bind {f : Nat → Token → ParseM α} {t : Token} (ht : t.isEndOfFile = false)
    (h : Decides (fun d => f d (t.move d)) tokens (fun more rest a => good (t :: more) rest a)
      (fun more => bad (t :: more))) :
    Decides (fun d => bump >>= f d) (t :: tokens) good bad := by
  obtain ⟨taken, rest, rfl, ⟨a, hread, ha⟩ | ⟨e, hread, he⟩⟩ := h
  · exact ⟨t :: taken, rest, rfl, .inl ⟨a, (Reads.bump ht).bind hread, ha⟩⟩
  · exact ⟨t :: taken, rest, rfl, .inr ⟨e, (Reads.bump ht).bind hread, he⟩⟩

/-- The `congr` of reading, when the tokens are decided on. -/
theorem congr (h : ∀ d q, Alike d tokens.head? q.current → x d q = y d q)
    (hy : Decides y tokens good bad) : Decides x tokens good bad := by
  obtain ⟨taken, rest, rfl, ⟨a, hread, ha⟩ | ⟨e, hread, he⟩⟩ := hy
  · exact ⟨taken, rest, rfl, .inl ⟨a, hread.congr h, ha⟩⟩
  · exact ⟨taken, rest, rfl, .inr ⟨e, hread.congr h, he⟩⟩

theorem congr_pair (h : ∀ d q, Alike d tokens.head? q.current → Alike d tokens[1]? q.next →
      x d q = y d q) (hgood : ∀ taken rest a, good taken rest a → taken ≠ [])
    (hbad : ∀ taken, bad taken → taken ≠ []) (hy : Decides y tokens good bad) :
    Decides x tokens good bad := by
  obtain ⟨taken, rest, rfl, ⟨a, hread, ha⟩ | ⟨e, hread, he⟩⟩ := hy
  · exact ⟨taken, rest, rfl, .inl ⟨a, hread.congr_pair (hgood taken rest a ha) h, ha⟩⟩
  · exact ⟨taken, rest, rfl, .inr ⟨e, hread.congr_pair (hbad taken he) h, he⟩⟩

end Decides

end Parser

end FormulaSyntax
