import FormulaSyntax.Proofs.Scanning.Placing

/-!
# A text in pieces

The tokenizer divides a text into **pieces**: the blanks in front of a lexeme, and the word that
was read as the lexeme. Behind the last piece there are blanks only, or there is a text that no
lexeme begins. `Divides` says that this is what every window on the text yields, and
`exists_divides` that every text is divided so. The tokens then are those of the pieces, put one
behind the other from the window's position on.

The division is a matter of the text alone. A text without an error is even divided in the same
way with a further line behind it: then the line feed is the next token, and the tokenizer goes
on behind it as if it began there.
-/

set_option autoImplicit false

namespace FormulaSyntax

/-! ## Pieces -/

/-- Blanks, and a word behind them that is read as a lexeme. -/
structure Piece where
  gap : List Char
  word : List Char
  lexeme : Lexeme
  isBlank_gap : ∀ c ∈ gap, isBlank c = true
  word_ne_nil : word ≠ []
  lexeme_ne : lexeme ≠ .symbol .endOfFile

/-- What is left behind the last piece: blanks, or blanks and a text in error. -/
inductive Ending where
  | clean (gap : List Char)
  | broken (gap bad : List Char) (cause : LexCause) (length : Nat)

namespace Piece

/-- The text of pieces. -/
def chars : List Piece → List Char
  | [] => []
  | p :: rest => p.gap ++ (p.word ++ chars rest)

/-- The tokens of pieces whose text begins at a position. -/
def tokens (position : Nat) : List Piece → List Token
  | [] => []
  | p :: rest =>
    let start := position + p.gap.length
    let stop := start + p.word.length
    ⟨p.lexeme, ⟨start, stop⟩⟩ :: tokens stop rest

theorem ne_endOfFile_of_mem_tokens {pieces : List Piece} {position : Nat} {t : Token}
    (h : t ∈ tokens position pieces) : t.isEndOfFile = false := by
  induction pieces generalizing position with
  | nil => exact nomatch h
  | cons p rest ih =>
    rcases List.mem_cons.mp h with rfl | h
    · rw [Bool.eq_false_iff]
      intro hend
      exact p.lexeme_ne (Token.isEndOfFile_iff.mp hend)
    · exact ih h

end Piece

namespace Ending

def chars : Ending → List Char
  | clean gap => gap
  | broken gap bad _ _ => gap ++ bad

/-- The blanks that an ending begins with. -/
def gap : Ending → List Char
  | clean gap => gap
  | broken gap _ _ _ => gap

/-- The last answer of the tokenizer, for an ending at a position. -/
def answer (position : Nat) : Ending → Except LexError Token
  | clean _ => .ok .endOfFile
  | broken gap _ cause length =>
    .error ⟨cause, ⟨position + gap.length, position + gap.length + length⟩⟩

end Ending

/-- A text is divided into pieces and an ending: it consists of them, and they are what the
    tokenizer makes of it, wherever it stands. -/
structure Divides (text : List Char) (pieces : List Piece) (ending : Ending) : Prop where
  chars_eq : text = Piece.chars pieces ++ ending.chars
  isBlank_gap : ∀ c ∈ ending.gap, isBlank c = true
  answers_eq : ∀ w : Window, w.text = text →
    w.answers = (Piece.tokens w.position pieces).map .ok
      ++ [ending.answer (w.position + (Piece.chars pieces).length)]
  /-- With a further line behind it. -/
  answers_line : ∀ gap, ending = .clean gap → ∀ (w : Window) (more : List Char),
    w.text = text ++ '\n' :: more → ∃ v : Window, v.text = more ∧
      v.position = w.position + text.length + 1 ∧
      w.answers = (Piece.tokens w.position pieces).map .ok
        ++ .ok ⟨.symbol .newLine, ⟨w.position + text.length, w.position + text.length + 1⟩⟩
          :: v.answers

namespace Window

variable {w : Window} {gap rest behind : List Char} {c : Char}

/-! ## One token -/

theorem run_blanks (hgap : ∀ c ∈ gap, isBlank c = true) (h : w.text = gap ++ rest)
    (hrest : ∀ c ∈ rest.head?, isBlank c = false) : (w.run blanks).2 = w.pass gap.length := by
  have hskip : gather blanks w [] = gather blanks (w.pass gap.length) [] := by
    apply gather_skip [] h
    intro c hc d
    simp [blanks, hgap c hc]
  rw [run, hskip, gather_of_stop]
  intro c hc d
  rw [text_pass_of_text h] at hc
  simp [blanks, hrest c hc]

theorem nextToken_of_blanks (hgap : ∀ c ∈ gap, isBlank c = true) (h : w.text = gap) :
    w.nextToken = (.ok .endOfFile, w.pass gap.length) := by
  have htext : w.text = gap ++ [] := h.trans (List.append_nil gap).symm
  have hnone : (w.pass gap.length).current? = none := by
    rw [current?_eq_head?, text_pass_of_text htext]
    rfl
  have hrest : ∀ c ∈ ([] : List Char).head?, isBlank c = false := by simp
  simp only [nextToken, run_blanks hgap htext hrest, hnone]

theorem nextToken_of_gap (hgap : ∀ c ∈ gap, isBlank c = true) (hc : isBlank c = false)
    (h : w.text = gap ++ c :: rest) :
    w.nextToken =
      ((lexeme c (w.pass gap.length)).1.map fun l =>
        ⟨l, (lexeme c (w.pass gap.length)).2.spanFrom (w.position + gap.length)⟩,
      (lexeme c (w.pass gap.length)).2) := by
  have hhead : ∀ d ∈ (c :: rest).head?, isBlank d = false := by
    intro d hd
    obtain rfl : c = d := Option.some.inj hd
    exact hc
  have hcurrent : (w.pass gap.length).current? = some c :=
    current?_of_text (text_pass_of_text h)
  simp only [nextToken, run_blanks hgap h hhead, hcurrent, position_pass_of_text h]

theorem nextToken_of_head (hc : isBlank c = false) (h : w.text = c :: rest) :
    w.nextToken = ((lexeme c w).1.map fun l => ⟨l, (lexeme c w).2.spanFrom w.position⟩,
      (lexeme c w).2) := by
  have hgap : ∀ d ∈ ([] : List Char), isBlank d = true := nofun
  have hnext := nextToken_of_gap hgap hc h
  rwa [List.length_nil, pass_zero] at hnext

/-- A text begins with a word, or is in error. In the first case the word is read in front of
    everything that closes the text. -/
theorem exists_word (c : Char) (rest : List Char) :
    (∃ (word others : List Char) (l : Lexeme), c :: rest = word ++ others ∧ word ≠ [] ∧
      l ≠ .symbol .endOfFile ∧
      ∀ (w : Window) (behind : List Char), Closes behind → w.text = c :: rest ++ behind →
        lexeme c w = (.ok l, w.pass word.length)) ∨
      ∃ (cause : LexCause) (length : Nat), ∀ w : Window, w.text = c :: rest →
        (lexeme c w).1 = .error ⟨cause, ⟨w.position, w.position + length⟩⟩ := by
  obtain ⟨r, n, hn, hread⟩ := exists_lexeme c rest
  cases r with
  | error e =>
    refine .inr ⟨e.1, e.2, ?_⟩
    intro w h
    rw [← List.append_nil (c :: rest)] at h
    rw [hread w [] closes_nil (.inr (.inl rfl)) h]
    rfl
  | ok l =>
    have hlength : ((c :: rest).take n).length = n := List.length_take_of_le hn
    -- What is left to know of the word can be seen in any window on the text.
    have htext : (ofText (c :: rest)).text = c :: rest ++ [] := by simp
    have hlexeme := hread (ofText (c :: rest)) [] closes_nil (.inl rfl) htext
    have hcurrent : (ofText (c :: rest)).current? = some c := current?_of_text htext
    have hne : (c :: rest).take n ≠ [] := by
      have hlt := length_text_lexeme_lt hcurrent
      rw [hlexeme, text_pass, htext, List.append_nil, List.length_drop, List.length_cons] at hlt
      intro hnil
      rw [hnil, List.length_nil] at hlength
      omega
    have hlexable : l.Lexable := lexeme_lexable hcurrent (by rw [hlexeme]; rfl)
    refine .inl ⟨(c :: rest).take n, (c :: rest).drop n, l, (List.take_append_drop n _).symm, hne,
      hlexable.ne_endOfFile, ?_⟩
    intro w behind hb h
    rw [hread w behind hb (.inl rfl) h, hlength]
    rfl

/-- The same behind blanks, for the next token. -/
theorem exists_nextToken (hgap : ∀ c ∈ gap, isBlank c = true) (hc : isBlank c = false) :
    (∃ (p : Piece) (others : List Char), p.gap = gap ∧ c :: rest = p.word ++ others ∧
      ∀ (w : Window) (behind : List Char), Closes behind →
        w.text = gap ++ (c :: rest ++ behind) →
          w.nextToken =
            (.ok ⟨p.lexeme, ⟨w.position + gap.length, w.position + gap.length + p.word.length⟩⟩,
              w.pass (gap.length + p.word.length))) ∨
      ∃ (cause : LexCause) (length : Nat), ∀ w : Window, w.text = gap ++ c :: rest →
        w.nextToken.1 = .error ⟨cause, ⟨w.position + gap.length, w.position + gap.length + length⟩⟩ := by
  rcases exists_word c rest with ⟨word, others, l, hword, hne, hl, hread⟩ | ⟨cause, length, herror⟩
  · refine .inl ⟨⟨gap, word, l, hgap, hne, hl⟩, others, rfl, hword, ?_⟩
    intro w behind hb h
    have htext := text_pass_of_text h
    have hafter : (w.pass (gap.length + word.length)).position
        = w.position + gap.length + word.length := by
      rw [← pass_pass, ← position_pass_of_text h]
      rw [hword, List.append_assoc] at htext
      exact position_pass_of_text htext
    rw [nextToken_of_gap hgap hc h, hread _ behind hb htext]
    simp only [Except.map, spanFrom, pass_pass, hafter]
  · refine .inr ⟨cause, length, ?_⟩
    intro w h
    rw [nextToken_of_gap hgap hc h, herror _ (text_pass_of_text h), position_pass_of_text h]
    rfl

/-! ## All tokens -/

theorem answers_of_token {t : Token} {v : Window} (h : w.nextToken = (.ok t, v))
    (ht : t.lexeme ≠ .symbol .endOfFile) : w.answers = .ok t :: v.answers := by
  have hmore : Tokenizer.endsStream (.ok t) = false := by
    rw [Tokenizer.endsStream, Bool.eq_false_iff]
    exact fun hend => ht (Token.isEndOfFile_iff.mp hend)
  rw [answers_eq, h, hmore]
  rfl

theorem answers_of_last (h : Tokenizer.endsStream w.nextToken.1 = true) :
    w.answers = [w.nextToken.1] := by
  rw [answers_eq, h]
  rfl

theorem lexeme_lineFeed (w : Window) : lexeme '\n' w = (.ok (.symbol .newLine), w.advance) := by
  have hclasses : isNameStart '\n' = false ∧ Char.isDigit '\n' = false := by decide
  simp [lexeme, hclasses, symbolLexeme, Symbol.withEquals?, Symbol.ofChar?]

theorem nextToken_lineFeed {more : List Char} (hgap : ∀ c ∈ gap, isBlank c = true)
    (h : w.text = gap ++ '\n' :: more) :
    w.nextToken = (.ok ⟨.symbol .newLine,
      ⟨w.position + gap.length, w.position + gap.length + 1⟩⟩, w.pass (gap.length + 1)) := by
  have hposition : (w.pass (gap.length + 1)).position = w.position + gap.length + 1 := by
    apply position_pass
    rw [h]
    simp
  rw [nextToken_of_gap hgap (by decide) h, lexeme_lineFeed, advance_pass]
  simp only [Except.map, spanFrom, hposition]

theorem divides_clean (hgap : ∀ c ∈ gap, isBlank c = true) : Divides gap [] (.clean gap) where
  chars_eq := rfl
  isBlank_gap := hgap
  answers_eq w h := by
    have hnext := nextToken_of_blanks hgap h
    rw [answers_of_last (by rw [hnext]; rfl), hnext]
    rfl
  answers_line _ _ w more h := by
    have hnext := nextToken_lineFeed hgap h
    refine ⟨w.pass (gap.length + 1), ?_, ?_, answers_of_token hnext nofun⟩
    · rw [text_pass, h, List.drop_append, List.drop_eq_nil_of_le (Nat.le_succ _)]
      simp
    · apply position_pass
      rw [h]
      simp

theorem divides_cons {p : Piece} {text others : List Char} {pieces : List Piece} {ending : Ending}
    (htext : text = p.gap ++ (p.word ++ others)) (hothers : Divides others pieces ending)
    (hread : ∀ (w : Window) (behind : List Char), Closes behind → w.text = text ++ behind →
      w.nextToken =
        (.ok ⟨p.lexeme, ⟨w.position + p.gap.length, w.position + p.gap.length + p.word.length⟩⟩,
          w.pass (p.gap.length + p.word.length))) :
    Divides text (p :: pieces) ending := by
  have hsplit : text = (p.gap ++ p.word) ++ others := by rw [htext, List.append_assoc]
  have hlength : (p.gap ++ p.word).length = p.gap.length + p.word.length := List.length_append
  -- Behind the piece every window is one on the other pieces.
  have hpass : ∀ {w : Window} {behind : List Char}, w.text = text ++ behind →
      (w.pass (p.gap.length + p.word.length)).text = others ++ behind ∧
        (w.pass (p.gap.length + p.word.length)).position
          = w.position + p.gap.length + p.word.length := by
    intro w behind h
    rw [hsplit, List.append_assoc] at h
    rw [← hlength]
    refine ⟨text_pass_of_text h, ?_⟩
    rw [position_pass_of_text h, hlength, Nat.add_assoc]
  refine ⟨?_, hothers.isBlank_gap, ?_, ?_⟩
  · rw [htext, hothers.chars_eq]
    simp only [Piece.chars, List.append_assoc]
  · intro w h
    rw [← List.append_nil text] at h
    obtain ⟨hrest, hposition⟩ := hpass h
    rw [List.append_nil] at hrest
    rw [answers_of_token (hread w [] closes_nil h) p.lexeme_ne, hothers.answers_eq _ hrest,
      hposition]
    simp only [Piece.tokens, Piece.chars, List.length_append, List.map_cons, List.cons_append,
      Nat.add_assoc]
  · intro gap hclean w more h
    obtain ⟨hrest, hposition⟩ := hpass h
    obtain ⟨v, hv, hvposition, hanswers⟩ := hothers.answers_line gap hclean _ more hrest
    have hstop : w.position + text.length
        = w.position + p.gap.length + p.word.length + others.length := by
      rw [hsplit, List.length_append, hlength]
      omega
    refine ⟨v, hv, by rw [hvposition, hposition, hstop], ?_⟩
    rw [answers_of_token (hread w _ (closes_lineFeed more) h) p.lexeme_ne, hanswers, hposition,
      hstop]
    rfl

end Window

/-- Every text is blank, or begins with blanks and a character that is none. -/
theorem exists_gap (text : List Char) :
    ∃ gap, (∀ c ∈ gap, isBlank c = true) ∧
      (text = gap ∨ ∃ c rest, text = gap ++ c :: rest ∧ isBlank c = false) := by
  induction text with
  | nil => exact ⟨[], nofun, .inl rfl⟩
  | cons c rest ih =>
    cases hc : isBlank c with
    | false => exact ⟨[], nofun, .inr ⟨c, rest, rfl, hc⟩⟩
    | true =>
      obtain ⟨gap, hgap, hrest⟩ := ih
      refine ⟨c :: gap, List.forall_mem_cons.mpr ⟨hc, hgap⟩, ?_⟩
      rcases hrest with rfl | ⟨d, others, rfl, hd⟩
      · exact .inl rfl
      · exact .inr ⟨d, others, rfl, hd⟩

/-- **Every text is divided into pieces and an ending.** -/
theorem exists_divides (text : List Char) :
    ∃ (pieces : List Piece) (ending : Ending), Divides text pieces ending := by
  obtain ⟨gap, hgap, htext | ⟨c, rest, rfl, hc⟩⟩ := exists_gap text
  · subst htext
    exact ⟨[], .clean text, Window.divides_clean hgap⟩
  · rcases Window.exists_nextToken hgap hc with
      ⟨p, others, rfl, hword, hread⟩ | ⟨cause, length, hread⟩
    · have hshorter : others.length < (p.gap ++ c :: rest).length := by
        have hpos := List.length_pos_iff.mpr p.word_ne_nil
        rw [hword, List.length_append, List.length_append]
        omega
      obtain ⟨pieces, ending, hothers⟩ := exists_divides others
      refine ⟨p :: pieces, ending, Window.divides_cons (by rw [hword]) hothers ?_⟩
      intro w behind hb h
      exact hread w behind hb (by rw [h, List.append_assoc])
    · refine ⟨[], .broken gap (c :: rest) cause length, rfl, hgap, ?_, nofun⟩
      intro w h
      have hnext := hread w h
      rw [Window.answers_of_last (by rw [hnext]; rfl), hnext]
      rfl
termination_by text.length

end FormulaSyntax
