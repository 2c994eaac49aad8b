import FormulaSyntax.Proofs.Scanning.Pieces

/-!
# Tokens and lexical errors stand in the text

Whatever the tokenizer gives has a place in the text: the span of a token, and that of an error,
covers at least one character, and none that is not there (`answers_within`). The end marker
alone is exempt.

Scanning a lexeme passes a character at least, so a span that stops where the scan has stopped is
in order. There is one error whose span stops a character further: that of a number which ends in
a separator. The scan has seen that separator but has not passed it, so this character is there as
well (`Marks`).
-/

set_option autoImplicit false

namespace FormulaSyntax

/-! ## Spans between two offsets -/

/-- A span covers at least one character, and none outside of two offsets. -/
structure Span.Within (s : Span) (low high : Nat) : Prop where
  low_le : low ≤ s.start
  start_lt : s.start < s.stop
  stop_le : s.stop ≤ high

namespace Span.Within

variable {s t : Span} {low high : Nat}

theorem widen {low' high' : Nat} (h : s.Within low high) (hlow : low' ≤ low)
    (hhigh : high ≤ high') : s.Within low' high' :=
  ⟨Nat.le_trans hlow h.low_le, h.start_lt, Nat.le_trans h.stop_le hhigh⟩

theorem merge (hs : s.Within low high) (ht : t.Within low high) : (s.merge t).Within low high where
  low_le := Nat.le_min.mpr ⟨hs.low_le, ht.low_le⟩
  start_lt := by
    have hstart : (s.merge t).start ≤ s.start := Nat.min_le_left ..
    have hstop : s.stop ≤ (s.merge t).stop := Nat.le_max_left ..
    have hlt := hs.start_lt
    omega
  stop_le := Nat.max_le.mpr ⟨hs.stop_le, ht.stop_le⟩

end Span.Within

/-- What an answer speaks of stands between two offsets, unless it is the end. -/
def PlacedWithin (low high : Nat) : Except LexError Token → Prop
  | .ok t => t.isEndOfFile = false → t.span.Within low high
  | .error e => e.span.Within low high

theorem PlacedWithin.widen {answer : Except LexError Token} {low high low' high' : Nat}
    (h : PlacedWithin low high answer) (hlow : low' ≤ low) (hhigh : high ≤ high') :
    PlacedWithin low' high' answer := by
  cases answer with
  | ok t => exact fun ht => (h ht).widen hlow hhigh
  | error e => exact Span.Within.widen h hlow hhigh

namespace Window

variable {w : Window} {c : Char} {rest : List Char} {e : LexError}

/-! ## One lexeme -/

/-- The offset at which the text ends. -/
def stop (w : Window) : Nat := w.position + w.text.length

/-- What passes moves the position on and shortens the text by as much. -/
theorem stop_pass {n : Nat} (h : n ≤ w.text.length) : (w.pass n).stop = w.stop := by
  rw [stop, stop, position_pass h, text_pass, List.length_drop]
  omega

/-- The scan of a lexeme lets at least one character pass. -/
theorem exists_lexeme_eq_pass (h : w.text = c :: rest) :
    ∃ n, 0 < n ∧ n ≤ w.text.length ∧ (lexeme c w).2 = w.pass n := by
  obtain ⟨r, n, hn, hread⟩ := exists_lexeme c rest
  have hpass : (lexeme c w).2 = w.pass n := by
    rw [hread w [] closes_nil (.inr (.inl rfl)) (by rw [h, List.append_nil])]
  have hlt := length_text_lexeme_lt (current?_of_text h)
  rw [hpass, text_pass, List.length_drop] at hlt
  refine ⟨n, by omega, ?_, hpass⟩
  rwa [h, List.length_cons]

/-- An error marks what a scan from `start` has passed, or that and the character which the scan
    has stopped at. -/
def Marks (start : Nat) (rest : Window) (e : LexError) : Prop :=
  e.span = rest.spanFrom start ∨
    rest.current?.isSome = true ∧ e.span = ⟨start, rest.position + 1⟩

/-- A separator that is left behind a number is marked although it is not passed. -/
theorem marks_of_number (h : w.number.1 = .error e) : Marks w.position w.number.2 e := by
  obtain ⟨r, n, hn, hread⟩ := exists_unguardedNumber w.text
  have hnumber := hread w [] closes_nil (List.append_nil _).symm
  unfold number at h ⊢
  cases r with
  | error cause =>
    simp only [hnumber, blame_error] at h ⊢
    obtain rfl := Except.error.inj h
    exact .inl rfl
  | ok x =>
    simp only [hnumber, blame_ok] at h ⊢
    by_cases hseparator : (w.pass n).current? = some '_'
    · simp only [if_pos hseparator] at h ⊢
      obtain rfl := Except.error.inj h
      exact .inr ⟨by rw [hseparator]; rfl, rfl⟩
    · simp only [if_neg hseparator] at h
      exact nomatch h

theorem marks_of_quotation {quote : Char} (h : (quotation quote w).1 = .error e) :
    Marks w.position (quotation quote w).2 e := by
  unfold quotation at h ⊢
  cases hbody : quotationBody quote w.advance [] with
  | mk content rest =>
    cases content with
    | some content =>
      simp only [hbody] at h
      exact nomatch h
    | none =>
      simp only [hbody] at h ⊢
      obtain rfl := Except.error.inj h
      exact .inl rfl

theorem marks_of_symbolLexeme (h : (symbolLexeme c w).1 = .error e) :
    Marks w.position (symbolLexeme c w).2 e := by
  unfold symbolLexeme at h ⊢
  cases hpair : if w.following? = some '=' then Symbol.withEquals? c else none with
  | some s =>
    simp only [hpair] at h
    exact nomatch h
  | none =>
    cases hsymbol : Symbol.ofChar? c with
    | some s =>
      simp only [hpair, hsymbol] at h
      exact nomatch h
    | none =>
      simp only [hpair, hsymbol] at h ⊢
      obtain rfl := Except.error.inj h
      exact .inl rfl

theorem exists_of_map {α β : Type} {f : α → β} {r : Except LexError α} {b : β}
    (h : r.map f = .ok b) : ∃ a, r = .ok a ∧ f a = b := by
  cases r with
  | ok a => exact ⟨a, rfl, Except.ok.inj h⟩
  | error e => exact nomatch h

theorem error_of_map {α β : Type} {f : α → β} {r : Except LexError α} (h : r.map f = .error e) :
    r = .error e := by
  cases r with
  | ok a => exact nomatch h
  | error e' => exact congrArg Except.error (Except.error.inj h)

theorem marks_of_lexeme (h : (lexeme c w).1 = .error e) : Marks w.position (lexeme c w).2 e := by
  unfold lexeme at h ⊢
  by_cases hname : isNameStart c = true
  · simp only [if_pos hname] at h
    exact nomatch h
  · by_cases hdigit : c.isDigit = true
    · simp only [if_neg hname, if_pos hdigit] at h ⊢
      exact marks_of_number (error_of_map h)
    · by_cases hquote : c = '"' ∨ c = '\''
      · simp only [if_neg hname, if_neg hdigit, if_pos hquote] at h ⊢
        exact marks_of_quotation (error_of_map h)
      · simp only [if_neg hname, if_neg hdigit, if_neg hquote] at h ⊢
        exact marks_of_symbolLexeme h

/-- A lexeme covers what its scan has passed, which is one character at least. -/
theorem spanFrom_lexeme_within (h : w.text = c :: rest) :
    ((lexeme c w).2.spanFrom w.position).Within w.position w.stop := by
  obtain ⟨n, hpos, hn, hpass⟩ := exists_lexeme_eq_pass h
  rw [hpass, spanFrom, position_pass hn]
  exact ⟨Nat.le_refl _, Nat.lt_add_of_pos_right hpos, Nat.add_le_add_left hn _⟩

theorem lexeme_error_within (h : w.text = c :: rest) (he : (lexeme c w).1 = .error e) :
    e.span.Within w.position w.stop := by
  rcases marks_of_lexeme he with hspan | ⟨hcurrent, hspan⟩
  · rw [hspan]
    exact spanFrom_lexeme_within h
  · obtain ⟨n, -, hn, hpass⟩ := exists_lexeme_eq_pass h
    rw [hpass, current?_eq_head?, text_pass, List.isSome_head?] at hcurrent
    have hmore : n < w.text.length := by
      apply Nat.lt_of_not_le
      intro hle
      exact hcurrent (List.drop_eq_nil_of_le hle)
    rw [hspan, hpass, position_pass hn]
    refine ⟨Nat.le_refl _, ?_, ?_⟩
    · show w.position < w.position + n + 1
      omega
    · show w.position + n + 1 ≤ w.position + w.text.length
      omega

/-! ## One token -/

/-- Blanks in front are passed before the lexeme begins, so the offsets only widen. -/
theorem nextToken_within (w : Window) : PlacedWithin w.position w.stop w.nextToken.1 := by
  obtain ⟨gap, hgap, htext | ⟨c, rest, htext, hc⟩⟩ := exists_gap w.text
  · rw [nextToken_of_blanks hgap htext]
    exact nofun
  · have hpassed : gap.length ≤ w.text.length := by
      rw [htext, List.length_append]
      exact Nat.le_add_right _ _
    have hword : (w.pass gap.length).text = c :: rest := text_pass_of_text htext
    have hlow : w.position ≤ (w.pass gap.length).position := by
      rw [position_pass hpassed]
      exact Nat.le_add_right _ _
    have hhigh := Nat.le_of_eq (stop_pass hpassed)
    rw [nextToken_of_gap hgap hc htext, ← position_pass hpassed]
    cases hl : (lexeme c (w.pass gap.length)).1 with
    | ok l => exact fun _ => (spanFrom_lexeme_within hword).widen hlow hhigh
    | error e => exact (lexeme_error_within hword hl).widen hlow hhigh

theorem exists_nextToken_eq_pass (w : Window) :
    ∃ n, n ≤ w.text.length ∧ w.nextToken.2 = w.pass n := by
  obtain ⟨gap, hgap, htext | ⟨c, rest, htext, hc⟩⟩ := exists_gap w.text
  · refine ⟨gap.length, Nat.le_of_eq (congrArg List.length htext).symm, ?_⟩
    rw [nextToken_of_blanks hgap htext]
  · have hword : (w.pass gap.length).text = c :: rest := text_pass_of_text htext
    obtain ⟨n, -, hn, hpass⟩ := exists_lexeme_eq_pass hword
    refine ⟨gap.length + n, ?_, ?_⟩
    · rw [hword] at hn
      rw [htext, List.length_append]
      omega
    · rw [nextToken_of_gap hgap hc htext, hpass, pass_pass]

/-! ## All answers -/

/-- **All tokens but the end marker, and every error, stand in the text.** -/
theorem answers_within (w : Window) :
    ∀ answer ∈ w.answers, PlacedWithin w.position w.stop answer := by
  refine forall_mem_answers (P := PlacedWithin w.position w.stop)
    (I := fun v => w.position ≤ v.position ∧ v.stop = w.stop) ?_ ⟨Nat.le_refl _, rfl⟩
  intro v ⟨hlow, hstop⟩
  refine ⟨(nextToken_within v).widen hlow (Nat.le_of_eq hstop), ?_⟩
  obtain ⟨n, hn, hpass⟩ := exists_nextToken_eq_pass v
  rw [hpass, stop_pass hn, position_pass hn]
  exact ⟨Nat.le_add_right_of_le hlow, hstop⟩

end Window

end FormulaSyntax
