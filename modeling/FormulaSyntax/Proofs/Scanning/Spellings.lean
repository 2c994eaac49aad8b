import FormulaSyntax.Proofs.Scanning.Words

/-!
# Spelled texts

`SpellsAll text ls` says that a text spells a list of lexemes: words with blanks between them,
and without where a word ends before the next one anyway. **Such a text is tokenized without an
error, and its tokens are those lexemes** (`answers_of_spellsAll`).

The tokenizer's stream is looked at through `Window.answers`, the answers alone. They follow one
equation (`answers_eq`), whose recursion is that of the stream and not that of its accumulator.

A spelled text holds no pair of a carriage return and a line feed. A line feed is never inside a
string, and elsewhere no carriage return can be. So it is its own normalized form.
-/

set_option autoImplicit false

namespace FormulaSyntax

inductive SpellsAll : List Char → List Lexeme → Prop
  | nil : SpellsAll [] []
  | blank {c : Char} {text : List Char} {ls : List Lexeme} :
      isBlank c = true → SpellsAll text ls → SpellsAll (c :: text) ls
  | word {word rest : List Char} {l : Lexeme} {ls : List Lexeme} :
      Spells word l → l.EndsBefore rest → SpellsAll rest ls → SpellsAll (word ++ rest) (l :: ls)

theorem Spells.ne_endOfFile {word : List Char} {l : Lexeme} (h : Spells word l) :
    l ≠ .symbol .endOfFile := by
  cases h with
  | symbol hs => simpa using hs
  | name =>
    unfold Lexeme.ofName
    split
    · exact nofun
    · split <;> exact nofun
  | number => exact nofun
  | string => exact nofun

theorem Token.isEndOfFile_iff {t : Token} :
    t.isEndOfFile = true ↔ t.lexeme = .symbol .endOfFile := by
  obtain ⟨l, span⟩ := t
  cases l <;> simp [isEndOfFile, kind, Lexeme.kind, TokenKind.endOfFile]

/-! ## Line ends in spelled texts -/

theorem normalizeChars_append {word : List Char} (h : '\r' ∉ word) (rest : List Char) :
    Newline.normalizeChars (word ++ rest) = word ++ Newline.normalizeChars rest := by
  induction word with
  | nil => rfl
  | cons c word ih =>
    have hc : c ≠ '\r' := by
      rintro rfl
      exact h List.mem_cons_self
    rw [List.cons_append, Newline.normalizeChars_cons fun _ e _ => hc e,
      ih fun hm => h (List.mem_cons_of_mem _ hm), List.cons_append]

/-- What stands behind a character of a string's body is no line feed. -/
theorem Body.head_ne {quote : Char} (hquote : quote ≠ '\n') {body content : List Char}
    (h : Body quote body content) (rest tail : List Char) :
    body ++ quote :: rest ≠ '\n' :: tail := by
  intro heq
  cases h with
  | nil => exact hquote (List.cons.inj heq).1
  | plain _ _ hbreak _ => exact hbreak (List.cons.inj heq).1
  | pair letter _ => exact absurd (List.cons.inj heq).1 (by decide)

theorem normalizeChars_body {quote : Char} (hquote : quote ≠ '\n' ∧ quote ≠ '\r')
    {body content : List Char} (h : Body quote body content) (rest : List Char) :
    Newline.normalizeChars (body ++ quote :: rest)
      = body ++ quote :: Newline.normalizeChars rest := by
  induction h with
  | nil => exact Newline.normalizeChars_cons fun _ e _ => hquote.2 e
  | @plain c body content _ _ _ hbody ih =>
    rw [List.cons_append, Newline.normalizeChars_cons, ih, List.cons_append]
    intro tail _ heq
    exact hbody.head_ne hquote.1 rest tail heq
  | @pair letter body content hbody ih =>
    -- The letter may be a carriage return, but what stands behind it is no line feed.
    rw [List.cons_append, List.cons_append, Newline.normalizeChars_cons fun _ e _ =>
      absurd e (by decide), Newline.normalizeChars_cons, ih, List.cons_append, List.cons_append]
    intro tail _ heq
    exact hbody.head_ne hquote.1 rest tail heq

theorem Spells.normalizeChars_append {word : List Char} {l : Lexeme} (h : Spells word l)
    (rest : List Char) :
    Newline.normalizeChars (word ++ rest) = word ++ Newline.normalizeChars rest := by
  cases h with
  | @symbol s hs =>
    apply FormulaSyntax.normalizeChars_append
    cases s <;> decide
  | @name c others hstart hothers =>
    apply FormulaSyntax.normalizeChars_append
    intro hmem
    exact absurd (isNamePart_of_mem_cons hstart hothers _ hmem) (by decide)
  | number hn _ =>
    apply FormulaSyntax.normalizeChars_append
    exact hn.notMem_chars (by decide) (by decide)
  | @string quote body content hquote hbody =>
    have hne : quote ≠ '\n' ∧ quote ≠ '\r' := by
      rcases hquote with rfl | rfl
      · decide
      · decide
    rw [List.cons_append, Newline.normalizeChars_cons fun _ e _ => hne.2 e, List.append_assoc,
      List.singleton_append, normalizeChars_body hne hbody]
    simp

/-- **A spelled text is its own normalized form.** -/
theorem SpellsAll.normalizeChars_eq {text : List Char} {ls : List Lexeme} (h : SpellsAll text ls) :
    Newline.normalizeChars text = text := by
  induction h with
  | nil => rfl
  | @blank c text ls hc _ ih =>
    have hne : c ≠ '\r' := by
      rintro rfl
      exact absurd hc (by decide)
    rw [Newline.normalizeChars_cons fun _ e _ => hne e, ih]
  | word hword _ _ ih => rw [hword.normalizeChars_append, ih]

/-! ## The stream of answers -/

namespace Window

def answers (w : Window) : List (Except LexError Token) :=
  (Tokenizer.readings ⟨w, false⟩).map Reading.answer

end Window

namespace Tokenizer

theorem readingsFrom_of_none {t t' : Tokenizer} (h : t.next = (none, t')) (given : List Reading) :
    readingsFrom t given = given.reverse := by
  rw [readingsFrom]
  split
  · rfl
  · next h' =>
    rw [h] at h'
    cases h'

theorem readingsFrom_of_some {t t' : Tokenizer} {answer : Except LexError Token}
    (h : t.next = (some answer, t')) (given : List Reading) :
    readingsFrom t given = readingsFrom t' (⟨answer, t'.window.position⟩ :: given) := by
  rw [readingsFrom]
  split
  · next h' =>
    rw [h] at h'
    cases h'
  · next h' =>
    rw [h] at h'
    cases h'
    rfl

theorem readingsFrom_append (t : Tokenizer) (before given : List Reading) :
    readingsFrom t (given ++ before) = before.reverse ++ readingsFrom t given := by
  fun_induction readingsFrom t given with
  | case1 t given rest h => rw [readingsFrom_of_none h, List.reverse_append]
  | case2 t given answer t' h ih => rw [readingsFrom_of_some h, ← List.cons_append, ih]

end Tokenizer

/-- An answer, and what follows unless it was the last one. -/
theorem Window.answers_eq (w : Window) :
    w.answers = w.nextToken.1 ::
      if Tokenizer.endsStream w.nextToken.1 then [] else w.nextToken.2.answers := by
  have hnext : Tokenizer.next ⟨w, false⟩
      = (some w.nextToken.1, ⟨w.nextToken.2, Tokenizer.endsStream w.nextToken.1⟩) := rfl
  rw [answers, Tokenizer.readings, Tokenizer.readingsFrom_of_some hnext, ← List.nil_append [_],
    Tokenizer.readingsFrom_append]
  cases hend : Tokenizer.endsStream w.nextToken.1 with
  | true =>
    have hdone : Tokenizer.next ⟨w.nextToken.2, true⟩ = (none, ⟨w.nextToken.2, true⟩) := rfl
    rw [Tokenizer.readingsFrom_of_none hdone]
    rfl
  | false => rfl

/-- What every scan gives and keeps holds of all answers. -/
theorem Window.forall_mem_answers {P : Except LexError Token → Prop} {I : Window → Prop}
    (hscan : ∀ w, I w → P w.nextToken.1 ∧ I w.nextToken.2) {w : Window} (h : I w) :
    ∀ answer ∈ w.answers, P answer := by
  rw [answers_eq]
  obtain ⟨hanswer, hrest⟩ := hscan w h
  intro answer hmem
  rcases List.mem_cons.mp hmem with rfl | hmem
  · exact hanswer
  · cases hend : Tokenizer.endsStream w.nextToken.1 with
    | true =>
      rw [hend] at hmem
      exact nomatch hmem
    | false =>
      rw [hend] at hmem
      have hlt : w.nextToken.2.text.length < w.text.length := by
        apply length_text_nextToken_lt
        intro heq
        rw [heq] at hend
        exact nomatch hend
      exact forall_mem_answers hscan hrest answer hmem
termination_by w.text.length

theorem Reading.collect_eq_ok_iff {readings : List Reading} {taken tokens : List Token} :
    Reading.collect taken readings = .ok tokens ↔
      ∃ more, tokens = taken.reverse ++ more ∧ readings.map Reading.answer = more.map .ok := by
  induction readings generalizing taken with
  | nil =>
    constructor
    · intro h
      exact ⟨[], by simpa [collect] using h.symm, rfl⟩
    · rintro ⟨more, rfl, hmore⟩
      obtain rfl : more = [] := by simpa using hmore
      simp [collect]
  | cons reading rest ih =>
    cases ha : reading.answer with
    | error e =>
      simp only [collect, ha, List.map_cons]
      constructor
      · exact fun h => nomatch h
      · rintro ⟨more, -, hmore⟩
        cases more <;> simp at hmore
    | ok token =>
      simp only [collect, ha, List.map_cons, ih, List.reverse_cons, List.append_assoc]
      constructor
      · rintro ⟨more, rfl, hmore⟩
        exact ⟨token :: more, rfl, by rw [hmore, List.map_cons]⟩
      · rintro ⟨more, rfl, hmore⟩
        cases more with
        | nil => simp at hmore
        | cons token' more =>
          obtain ⟨htoken, hrest⟩ := List.cons.inj hmore
          obtain rfl : token = token' := Except.ok.inj htoken
          exact ⟨more, rfl, hrest⟩

/-- **The tokens of a source are all answers of the stream**, if none of them is an error. -/
theorem tokenize_eq_ok_iff {source : String} {tokens : List Token} :
    tokenize source = .ok tokens ↔
      (Window.ofText (Newline.normalizeChars source.toList)).answers = tokens.map .ok := by
  rw [tokenize, Reading.collect_eq_ok_iff]
  simp only [List.reverse_nil, List.nil_append]
  constructor
  · rintro ⟨more, rfl, h⟩
    exact h
  · intro h
    exact ⟨tokens, rfl, h⟩

/-! ## Reading a spelled text -/

namespace Window

variable {w : Window} {text : List Char}

theorem nextToken_of_nil (h : w.text = []) : w.nextToken = (.ok .endOfFile, w) := by
  have hrun : w.run blanks = ([], w) := run_stop (by simp [h])
  have hnone : w.current? = none := by simp [current?_eq_head?, h]
  simp [nextToken, hrun, hnone]

theorem nextToken_of_blank {c : Char} (h : w.text = c :: text) (hc : isBlank c = true) :
    w.nextToken = w.advance.nextToken := by
  have hrun : w.run blanks = w.advance.run blanks := by
    have hsplit : w.text = [c] ++ text := h
    apply gather_skip [] hsplit
    intro d hd e
    rw [List.mem_singleton.mp hd]
    simp [blanks, hc]
  simp only [nextToken, hrun]

theorem nextToken_of_word {word rest : List Char} {l : Lexeme} (hword : Spells word l)
    (h : w.text = word ++ rest) (hends : l.EndsBefore rest) :
    ∃ span, w.nextToken = (.ok ⟨l, span⟩, w.pass word.length) := by
  obtain ⟨c, others, rfl, hblank, hread⟩ := lexeme_of_spells hword h hends
  have hrun : w.run blanks = ([], w) := by
    apply run_stop
    intro d hd e
    obtain rfl : c = d := by simpa [h] using hd
    simp [blanks, hblank]
  refine ⟨(w.pass (c :: others).length).spanFrom w.position, ?_⟩
  simp only [nextToken, hrun, current?_of_text h, hread, Except.map]

/-- **The answers to a spelled text are tokens of its lexemes, and the end marker.** -/
theorem answers_of_spellsAll {ls : List Lexeme} (h : SpellsAll text ls) (ht : w.text = text) :
    ∃ tokens, w.answers = (tokens ++ [.endOfFile]).map .ok ∧ tokens.map Token.lexeme = ls := by
  induction h generalizing w with
  | nil =>
    refine ⟨[], ?_, rfl⟩
    rw [answers_eq, nextToken_of_nil ht]
    rfl
  | blank hc _ ih =>
    obtain ⟨tokens, hanswers, hls⟩ := ih (text_advance_of_text ht)
    refine ⟨tokens, ?_, hls⟩
    rw [answers_eq, nextToken_of_blank ht hc, ← answers_eq, hanswers]
  | @word word rest l ls hword hends _ ih =>
    obtain ⟨span, hnext⟩ := nextToken_of_word hword ht hends
    obtain ⟨tokens, hanswers, hls⟩ := ih (text_pass_of_text ht)
    have hmore : Tokenizer.endsStream (.ok ⟨l, span⟩) = false := by
      rw [Tokenizer.endsStream, Bool.eq_false_iff]
      intro hend
      exact hword.ne_endOfFile (Token.isEndOfFile_iff.mp hend)
    refine ⟨⟨l, span⟩ :: tokens, ?_, by rw [List.map_cons, hls]⟩
    rw [answers_eq, hnext, hmore, hanswers]
    rfl

end Window

/-- **A source that spells a list of lexemes is tokenized to them.** -/
theorem tokenize_of_spellsAll {text : List Char} {ls : List Lexeme} (h : SpellsAll text ls) :
    ∃ tokens, tokenize (String.ofList text) = .ok (tokens ++ [.endOfFile]) ∧
      tokens.map Token.lexeme = ls := by
  obtain ⟨tokens, hanswers, hls⟩ := Window.answers_of_spellsAll h (Window.text_ofText text)
  refine ⟨tokens, ?_, hls⟩
  rw [tokenize_eq_ok_iff, String.toList_ofList, h.normalizeChars_eq, hanswers]

end FormulaSyntax
