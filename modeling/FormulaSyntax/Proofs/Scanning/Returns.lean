import FormulaSyntax.Proofs.Scanning.Pieces

/-!
# Carriage returns at the end of a text

A carriage return in front of a line feed is taken away when line ends are normalized. So a text
that ends in one is not the same text when a line is put behind it. But such a text is in error
in any case: no lexeme ends in a carriage return, and none begins with one. That leaves only
texts whose line ends can be normalized apart from the lines behind them.
-/

set_option autoImplicit false

namespace FormulaSyntax

/-! ## Normalization in two parts -/

namespace Newline

/-- Unless a pair of carriage return and line feed is split, two texts are normalized apart. -/
theorem normalizeChars_append {first second : List Char}
    (h : first.getLast? = some '\r' → second.head? ≠ some '\n') :
    normalizeChars (first ++ second) = normalizeChars first ++ normalizeChars second := by
  match first with
  | [] => rfl
  | [c] =>
    have hfirst : normalizeChars [c] = [c] := normalizeChars_cons nofun
    rw [List.singleton_append, hfirst, normalizeChars_cons]
    · rfl
    · rintro tail rfl rfl
      exact h rfl rfl
  | c :: d :: rest =>
    by_cases hpair : c = '\r' ∧ d = '\n'
    · obtain ⟨rfl, rfl⟩ := hpair
      have hrest : rest.getLast? = some '\r' → second.head? ≠ some '\n' := by
        cases rest with
        | nil => exact nofun
        | cons e rest => simpa [List.getLast?_cons_cons] using h
      have ih := normalizeChars_append hrest
      simp only [List.cons_append, normalizeChars_pair, ih]
    · have hsingle : ∀ {rest tail : List Char}, c = '\r' → d :: rest = '\n' :: tail → False :=
        fun hc hd => hpair ⟨hc, (List.cons.inj hd).1⟩
      rw [List.getLast?_cons_cons] at h
      have ih := normalizeChars_append h
      rw [List.cons_append, List.cons_append, normalizeChars_cons fun _ => hsingle,
        ← List.cons_append, ih, normalizeChars_cons fun _ => hsingle, List.cons_append]
termination_by first.length

/-- A text with a further line behind it. -/
theorem normalizeChars_line {first : List Char} (h : first.getLast? ≠ some '\r')
    (second : List Char) :
    normalizeChars (first ++ '\n' :: second)
      = normalizeChars first ++ '\n' :: normalizeChars second := by
  rw [normalizeChars_append fun hlast => absurd hlast h, normalizeChars_cons fun _ he =>
    absurd he (by decide)]

end Newline

namespace Window

variable {w : Window} {c : Char} {rest text : List Char}

/-! ## No lexeme ends in a carriage return -/

/-- A lexeme leaves a carriage return that ends the text. -/
theorem text_ne_nil_of_lexeme {l : Lexeme} (h : w.text = c :: (rest ++ ['\r']))
    (hl : (lexeme c w).1 = .ok l) : (lexeme c w).2.text ≠ [] := by
  intro hnil
  cases hopens : opensString c with
  | true =>
    -- A string ends in its closing quote.
    have hquote : c = '"' ∨ c = '\'' := by simpa [opensString] using hopens
    have hreturn : c ≠ '\r' := by
      rcases hquote with rfl | rfl
      · decide
      · decide
    obtain ⟨body, -, behind, -, -, htext, hpass⟩ := exists_body_of_lexeme hquote h hl
    rw [hpass, text_pass_of_text htext] at hnil
    rw [h, hnil, List.append_nil] at htext
    have hlast := (List.append_inj' (List.cons.inj htext).2 rfl).2
    exact hreturn (List.cons.inj hlast).1.symm
  | false =>
    obtain ⟨r, n, hn, hread⟩ := exists_lexeme c rest
    have hlexeme := hread w ['\r'] closes_return (.inr (.inr hopens)) h
    rw [hlexeme, text_pass, h, List.drop_eq_nil_iff] at hnil
    simp at hnil
    omega

/-- What a lexeme leaves of a text that ends in a carriage return ends in it, too. -/
theorem exists_text_of_lexeme {l : Lexeme} (h : w.text = c :: (rest ++ ['\r']))
    (hl : (lexeme c w).1 = .ok l) :
    ∃ others, (lexeme c w).2.text = others ++ ['\r'] ∧ others.length ≤ rest.length := by
  have hne := text_ne_nil_of_lexeme h hl
  have hlt := length_text_lexeme_lt (current?_of_text h)
  obtain ⟨r, n, hn, hread⟩ := exists_lexeme c (rest ++ ['\r'])
  have hlexeme := hread w [] closes_nil (.inr (.inl rfl)) (by rw [h, List.append_nil])
  have htext : (lexeme c w).2.text = (c :: rest ++ ['\r']).drop n := by
    rw [hlexeme, text_pass, h]
    rfl
  have hle : n ≤ (c :: rest).length := by
    apply Nat.le_of_not_lt
    intro hgt
    apply hne
    rw [htext, List.drop_eq_nil_iff, List.length_append]
    exact hgt
  rw [List.drop_append_of_le_length hle] at htext
  refine ⟨(c :: rest).drop n, htext, ?_⟩
  rw [htext, h] at hlt
  simp only [List.length_append, List.length_cons] at hlt
  omega

/-- **A text that ends in a carriage return is in error.** -/
theorem exists_error_of_return (text : List Char) :
    ∀ w : Window, w.text = text ++ ['\r'] →
      ∃ (before : List Token) (e : LexError), w.answers = before.map .ok ++ [.error e] := by
  intro w h
  have hlast : ∀ {e : LexError}, w.nextToken.1 = .error e →
      ∃ (before : List Token) (e : LexError), w.answers = before.map .ok ++ [.error e] := by
    intro e he
    refine ⟨[], e, ?_⟩
    rw [answers_of_last (by rw [he]; rfl), he]
    rfl
  obtain ⟨gap, hgap, htext | ⟨c, rest, rfl, hc⟩⟩ := exists_gap text
  · subst htext
    have hclasses : isNameStart '\r' = false ∧ Char.isDigit '\r' = false := by decide
    have hreturn : ∀ v : Window, ∃ e, (lexeme '\r' v).1 = .error e := by
      intro v
      simp [lexeme, hclasses, symbolLexeme, Symbol.withEquals?, Symbol.ofChar?]
    obtain ⟨e, he⟩ := hreturn (w.pass text.length)
    apply hlast (e := e)
    rw [nextToken_of_gap hgap (by decide) h, he]
    rfl
  · rw [List.append_assoc] at h
    have hnext := nextToken_of_gap hgap hc h
    cases hl : (lexeme c (w.pass gap.length)).1 with
    | error e =>
      apply hlast (e := e)
      rw [hnext, hl]
      rfl
    | ok l =>
      have htext := text_pass_of_text h
      obtain ⟨others, hothers, hle⟩ := exists_text_of_lexeme htext hl
      have hlexable := lexeme_lexable (current?_of_text htext) hl
      have hshorter : others.length < (gap ++ c :: rest).length := by
        rw [List.length_append, List.length_cons]
        omega
      obtain ⟨before, e, hanswers⟩ := exists_error_of_return others _ hothers
      rw [hl] at hnext
      refine ⟨⟨l, (lexeme c (w.pass gap.length)).2.spanFrom (w.position + gap.length)⟩ :: before,
        e, ?_⟩
      rw [answers_of_token hnext hlexable.ne_endOfFile, hanswers]
      rfl
termination_by text.length

end Window

/-- A text that is divided up to its end does not end in a carriage return, not even before its
    line ends were normalized. -/
theorem Divides.getLast?_ne {text gap : List Char} {pieces : List Piece}
    (h : Divides (Newline.normalizeChars text) pieces (.clean gap)) : text.getLast? ≠ some '\r' := by
  intro hlast
  obtain ⟨front, rfl⟩ := List.getLast?_eq_some_iff.mp hlast
  have hsplit : Newline.normalizeChars (front ++ ['\r'])
      = Newline.normalizeChars front ++ ['\r'] := by
    rw [Newline.normalizeChars_append fun _ => by decide]
    rfl
  have htext := Window.text_ofText (Newline.normalizeChars (front ++ ['\r']))
  obtain ⟨before, e, herror⟩ := Window.exists_error_of_return _ _ (htext.trans hsplit)
  rw [h.answers_eq _ htext] at herror
  obtain ⟨-, hend⟩ := List.append_inj' herror rfl
  exact nomatch (List.cons.inj hend).1

end FormulaSyntax
