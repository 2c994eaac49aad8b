import FormulaSyntax.Proofs.Scanning.Sessions
import FormulaSyntax.Proofs.Scanning.Tiling

/-!
# Line feeds among the tokens

A line feed is a token of its own, and no name, number or symbol is read across one. A string may
be: a backslash takes the character behind it along, and that may be a line feed. So every line
feed of a text is a line break among the tokens, or it stands directly behind a backslash in a
string (`lineFeeds_of_tokenize`). The tokens have as many line breaks as the text has line feeds
if and only if there is no such string.

Of a lexeme that is no string, the text is cut in front of its first line feed. That closes it, so
the scan does not see the line feed at all.
-/

set_option autoImplicit false

namespace FormulaSyntax

/-! ## Line feeds behind backslashes -/

/-- Every line feed of a text stands directly behind a backslash. -/
def EscapedBreaks (text : List Char) : Prop :=
  ∀ front back, text = front ++ '\n' :: back → front.getLast? = some '\\'

namespace EscapedBreaks

variable {c : Char} {text : List Char}

theorem of_notMem (h : '\n' ∉ text) : EscapedBreaks text := by
  rintro front back rfl
  exact absurd (List.mem_append_right front List.mem_cons_self) h

theorem cons (hc : c ≠ '\n') (h : EscapedBreaks text) : EscapedBreaks (c :: text) := by
  intro front back heq
  cases front with
  | nil => exact absurd (List.cons.inj heq).1 hc
  | cons d front =>
    rw [List.getLast?_cons, h front back (List.cons.inj heq).2]
    rfl

theorem pair (letter : Char) (h : EscapedBreaks text) :
    EscapedBreaks ('\\' :: letter :: text) := by
  intro front back heq
  match front with
  | [] => exact absurd (List.cons.inj heq).1 (by decide)
  | [d] =>
    obtain ⟨rfl, -⟩ := List.cons.inj heq
    rfl
  | d :: e :: front =>
    have hrest : text = front ++ '\n' :: back := (List.cons.inj (List.cons.inj heq).2).2
    rw [List.getLast?_cons, List.getLast?_cons, h front back hrest]
    rfl

/-- So there is no line feed at all if there is none behind a backslash. -/
theorem notMem_iff (h : EscapedBreaks text) : '\n' ∉ text ↔ ¬ ['\\', '\n'] <:+: text := by
  apply not_congr
  constructor
  · intro hmem
    obtain ⟨front, back, rfl⟩ := List.append_of_mem hmem
    obtain ⟨before, rfl⟩ := List.getLast?_eq_some_iff.mp (h front back rfl)
    exact ⟨before, back, by simp⟩
  · rintro ⟨before, back, rfl⟩
    simp

end EscapedBreaks

theorem Body.escapedBreaks {quote : Char} {body content behind : List Char}
    (h : Body quote body content) (hbehind : EscapedBreaks behind) :
    EscapedBreaks (body ++ behind) := by
  induction h with
  | nil => exact hbehind
  | plain _ _ hbreak _ ih => exact ih.cons hbreak
  | pair letter _ ih => exact ih.pair letter

/-! ## The words of lexemes -/

/-- What line feeds a word has that a lexeme was read from: a line break is nothing else, a string
    may have them behind backslashes, any other lexeme has none. -/
def Lexeme.Breaks (l : Lexeme) (word : List Char) : Prop :=
  match l.kind with
  | .symbol .newLine => word = ['\n']
  | .string => EscapedBreaks word
  | _ => '\n' ∉ word

theorem Lexeme.breaks_of_notMem {l : Lexeme} {word : List Char} (hl : l ≠ .symbol .newLine)
    (h : '\n' ∉ word) : l.Breaks word := by
  cases l with
  | symbol s =>
    cases s with
    | newLine => exact absurd rfl hl
    | _ => exact h
  | string text => exact EscapedBreaks.of_notMem h
  | name | number | truth => exact h

/-- Every text begins with a line: it has no line feed, and what is behind it closes it. -/
theorem exists_line (text : List Char) :
    ∃ line behind, text = line ++ behind ∧ '\n' ∉ line ∧ Closes behind := by
  by_cases h : '\n' ∈ text
  · obtain ⟨line, more, rfl, hline⟩ := List.eq_append_cons_of_mem h
    exact ⟨line, '\n' :: more, rfl, hline, closes_lineFeed more⟩
  · exact ⟨text, [], (List.append_nil text).symm, h, closes_nil⟩

namespace Window

variable {w : Window} {c : Char} {rest text : List Char} {l : Lexeme}

theorem symbolLexeme_ne_newLine (hc : c ≠ '\n') (h : (symbolLexeme c w).1 = .ok l) :
    l ≠ .symbol .newLine := by
  rintro rfl
  unfold symbolLexeme at h
  split at h
  · next s hs =>
    obtain rfl : s = .newLine := Lexeme.symbol.inj (Except.ok.inj h)
    split at hs
    · unfold Symbol.withEquals? at hs
      split at hs <;> exact nomatch hs
    · exact nomatch hs
  · split at h
    · next s hs =>
      obtain rfl : s = .newLine := Lexeme.symbol.inj (Except.ok.inj h)
      have hspelling := congrArg String.toList (Symbol.spelling_of_ofChar? hs)
      exact hc (List.cons.inj (hspelling.trans (String.toList_singleton c))).1.symm
    · exact nomatch h

theorem lexeme_ne_newLine (hc : c ≠ '\n') (h : (lexeme c w).1 = .ok l) :
    l ≠ .symbol .newLine := by
  have hname : ∀ text, Lexeme.ofName text ≠ .symbol .newLine := by
    intro text
    unfold Lexeme.ofName
    split
    · exact nofun
    · split <;> exact nofun
  unfold lexeme at h
  split at h
  · rw [← Except.ok.inj h]
    exact hname _
  · split at h
    · obtain ⟨x, -, rfl⟩ := exists_of_map h
      exact nofun
    · split at h
      · obtain ⟨content, -, rfl⟩ := exists_of_map h
        exact nofun
      · exact symbolLexeme_ne_newLine hc h

theorem breaks_of_string (hc : c = '"' ∨ c = '\'') (h : w.text = c :: rest)
    (hl : (lexeme c w).1 = .ok l) :
    ∃ n, n ≤ w.text.length ∧ (lexeme c w).2 = w.pass n ∧ l.Breaks (w.text.take n) := by
  obtain ⟨body, content, behind, hbody, rfl, htext, hpass⟩ := exists_body_of_lexeme hc h hl
  have hbreak : c ≠ '\n' := by
    rcases hc with rfl | rfl
    · decide
    · decide
  refine ⟨_, ?_, hpass, ?_⟩
  · rw [htext, List.length_append]
    exact Nat.le_add_right _ _
  · rw [htext, List.take_left]
    exact (hbody.escapedBreaks (.of_notMem (by simpa using hbreak.symm))).cons hbreak

/-- **A lexeme has line feeds in its word only if it is a line break, or a string with backslashes
    in front of them.** -/
theorem breaks_of_lexeme (h : w.text = c :: rest) (hl : (lexeme c w).1 = .ok l) :
    ∃ n, n ≤ w.text.length ∧ (lexeme c w).2 = w.pass n ∧ l.Breaks (w.text.take n) := by
  by_cases hquote : c = '"' ∨ c = '\''
  · exact breaks_of_string hquote h hl
  · by_cases hbreak : c = '\n'
    · subst hbreak
      rw [lexeme_lineFeed] at hl ⊢
      obtain rfl := Except.ok.inj hl
      rw [h]
      exact ⟨1, Nat.le_add_left 1 _, rfl, rfl⟩
    · obtain ⟨line, behind, rfl, hline, hbehind⟩ := exists_line rest
      obtain ⟨r, n, hn, hread⟩ := exists_lexeme c line
      have hopens : opensString c = false := by simpa [opensString] using hquote
      have hscan := hread w behind hbehind (.inr (.inr hopens)) h
      rw [← List.cons_append] at h
      refine ⟨n, ?_, congrArg Prod.snd hscan, ?_⟩
      · rw [h, List.length_append, List.length_cons]
        omega
      · apply Lexeme.breaks_of_notMem (lexeme_ne_newLine hbreak hl)
        rw [h, List.take_append_of_le_length hn]
        intro hmem
        rcases List.mem_cons.mp (List.mem_of_mem_take hmem) with rfl | hmem
        · exact hbreak rfl
        · exact hline hmem

/-! ## All tokens -/

/-- A token is the end marker, or that of a lexeme, and then its slice is the word that was read as
    the lexeme. -/
theorem Inside.exists_lexeme_of_nextToken (h : w.Inside text) {t : Token}
    (ht : w.nextToken.1 = .ok t) :
    t = .endOfFile ∨ ∃ (v : Window) (c : Char) (rest : List Char),
      v.text = c :: rest ∧ (lexeme c v).1 = .ok t.lexeme ∧
        ∀ n, n ≤ v.text.length → (lexeme c v).2 = v.pass n →
          t.span.slice text = v.text.take n := by
  obtain ⟨gap, hgap, htext | ⟨c, rest, htext, hc⟩⟩ := exists_gap w.text
  · rw [nextToken_of_blanks hgap htext] at ht
    exact .inl (Except.ok.inj ht).symm
  · rw [nextToken_of_gap hgap hc htext] at ht
    obtain ⟨l, hl, rfl⟩ := exists_of_map ht
    refine .inr ⟨w.pass gap.length, c, rest, text_pass_of_text htext, hl, ?_⟩
    intro n hn hpass
    have hstop : (w.pass gap.length).position = w.position + gap.length :=
      position_pass_of_text htext
    rw [hpass, spanFrom, position_pass hn, hstop, Span.slice, text_pass, h.text_eq, List.drop_drop,
      Nat.add_sub_cancel_left]

theorem breaks_nextToken (h : w.Inside text) {t : Token} (ht : w.nextToken.1 = .ok t) :
    t.lexeme.Breaks (t.span.slice text) := by
  rcases h.exists_lexeme_of_nextToken ht with rfl | ⟨v, c, rest, htext, hl, hslice⟩
  · exact List.not_mem_nil
  · obtain ⟨n, hn, hpass, hbreaks⟩ := breaks_of_lexeme htext hl
    rwa [hslice n hn hpass]

/-- What holds of every token that is scanned in a text holds of all tokens. -/
theorem Inside.forall_mem_answers {P : Token → Prop}
    (hscan : ∀ v : Window, v.Inside text → ∀ t, v.nextToken.1 = .ok t → P t) (h : w.Inside text) :
    ∀ t, .ok t ∈ w.answers → P t := by
  have hall := Window.forall_mem_answers (I := Inside text)
    (P := fun answer => ∀ t, answer = .ok t → P t)
    (fun v hv => ⟨hscan v hv, hv.nextToken⟩) h
  intro t ht
  exact hall _ ht t rfl

theorem breaks_of_answers (h : w.Inside text) :
    ∀ t, .ok t ∈ w.answers → t.lexeme.Breaks (t.span.slice text) :=
  h.forall_mem_answers fun _ hv _ => breaks_nextToken hv

end Window

/-! ## Counting -/

/-- A character that is no blank stands in the slices only. -/
theorem Interleaves.count {text chars : List Char} {spans : List Span}
    (h : Interleaves text spans chars) {c : Char} (hc : isBlank c = false) :
    chars.count c = (spans.flatMap (Span.slice · text)).count c := by
  have hgap : ∀ {gap : List Char}, (∀ d ∈ gap, d = ' ' ∨ d = '\t') → gap.count c = 0 := by
    intro gap hgap
    rw [List.count_eq_zero]
    intro hmem
    rcases hgap c hmem with rfl | rfl
    · exact absurd hc (by decide)
    · exact absurd hc (by decide)
  induction h with
  | blank h => exact hgap h
  | slice h _ ih =>
    rw [List.count_append, List.count_append, hgap h, ih, Nat.zero_add, List.flatMap_cons,
      List.count_append]

def Token.isNewLine (t : Token) : Bool := t.kind == .symbol .newLine

def Token.isString (t : Token) : Bool := t.kind == .string

/-- A token with a line feed in its slice is a line break, and has this one only, or a string. -/
theorem Token.count_slice {text : List Char} {t : Token}
    (h : t.lexeme.Breaks (t.span.slice text)) :
    (t.span.slice text).count '\n' = (if t.isNewLine then 1 else 0)
      + if t.isString then (t.span.slice text).count '\n' else 0 := by
  obtain ⟨l, span⟩ := t
  cases l with
  | symbol s =>
    cases s with
    | newLine =>
      have hslice : span.slice text = ['\n'] := h
      show (span.slice text).count '\n' = 1 + 0
      rw [hslice]
      rfl
    | _ => exact List.count_eq_zero.mpr h
  | string content => exact (Nat.zero_add _).symm
  | name | number | truth => exact List.count_eq_zero.mpr h

theorem Token.escapedBreaks_of_isString {text : List Char} {t : Token}
    (h : t.lexeme.Breaks (t.span.slice text)) (hs : t.isString = true) :
    EscapedBreaks (t.span.slice text) := by
  have hkind : t.lexeme.kind = .string := eq_of_beq hs
  rwa [Lexeme.Breaks, hkind] at h

theorem count_slices {text : List Char} {tokens : List Token}
    (h : ∀ t ∈ tokens, t.lexeme.Breaks (t.span.slice text)) :
    (tokens.flatMap fun t => t.span.slice text).count '\n'
      = tokens.countP Token.isNewLine
        + ((tokens.filter Token.isString).flatMap fun t => t.span.slice text).count '\n' := by
  induction tokens with
  | nil => rfl
  | cons t tokens ih =>
    have hrest := ih fun u hu => h u (List.mem_cons_of_mem _ hu)
    have hfirst := Token.count_slice (h t List.mem_cons_self)
    rw [List.flatMap_cons, List.count_append, List.countP_cons, List.filter_cons, hrest]
    cases hs : t.isString with
    | true =>
      simp only [hs, if_true, List.flatMap_cons, List.count_append] at hfirst ⊢
      omega
    | false =>
      simp only [hs, Bool.false_eq_true, if_false] at hfirst ⊢
      omega

/-! ## Main result -/

/-- **Every line feed of a source is a line break among its tokens, or stands behind a backslash
    in a string.** So there are as many line breaks as line feeds if and only if no string has a
    backslash in front of a line feed. -/
theorem lineFeeds_of_tokenize {source : String} {tokens : List Token}
    (h : tokenize source = .ok tokens) :
    let text := Newline.normalizeChars source.toList
    (∀ t ∈ tokens, t.lexeme.Breaks (t.span.slice text)) ∧
    text.count '\n' = tokens.countP Token.isNewLine
      + ((tokens.filter Token.isString).flatMap fun t => t.span.slice text).count '\n' ∧
    (tokens.countP Token.isNewLine = text.count '\n' ↔
      ∀ t ∈ tokens, t.isString = true → ¬ ['\\', '\n'] <:+: t.span.slice text) := by
  intro text
  have hbreaks : ∀ t ∈ tokens, t.lexeme.Breaks (t.span.slice text) := by
    have hfresh := Window.inside_ofFeed (.ofList text)
    rw [Feed.live_ofList] at hfresh
    intro t ht
    apply Window.breaks_of_answers hfresh
    rw [← Window.ofText, tokenize_eq_ok_iff.mp h]
    exact List.mem_map_of_mem ht
  have hcount : text.count '\n' = (tokens.flatMap fun t => t.span.slice text).count '\n' := by
    obtain ⟨before, rfl, htiles⟩ := tiles_of_tokenize h
    have hinterleaves := htiles.interleaves
    rw [Span.slice_zero, List.take_length] at hinterleaves
    have hmark : [Token.endOfFile].flatMap (fun t => t.span.slice text) = [] := rfl
    rw [hinterleaves.count (by decide), List.flatMap_map, List.flatMap_append, hmark,
      List.append_nil]
  rw [count_slices hbreaks] at hcount
  have hnone : ((tokens.filter Token.isString).flatMap fun t => t.span.slice text).count '\n' = 0
      ↔ ∀ t ∈ tokens, t.isString = true → ¬ ['\\', '\n'] <:+: t.span.slice text := by
    simp only [List.count_eq_zero, List.mem_flatMap, List.mem_filter, not_exists, not_and, and_imp]
    refine forall_congr' fun t => forall_congr' fun ht => forall_congr' fun hs => ?_
    exact (Token.escapedBreaks_of_isString (hbreaks t ht) hs).notMem_iff
  refine ⟨hbreaks, hcount, ?_⟩
  rw [← hnone]
  omega

/-- The first of two line feeds stands in a string, so there is one line break only. -/
theorem lineFeeds_of_tokenize_escaped :
    let source := "'a\\\n'\nx"
    let tokens : List Token := [⟨.string "a\\\n", ⟨0, 5⟩⟩, ⟨.symbol .newLine, ⟨5, 6⟩⟩,
      ⟨.name "x", ⟨6, 7⟩⟩, .endOfFile]
    tokenize source = .ok tokens ∧ tokens.countP Token.isNewLine = 1 ∧
      (Newline.normalizeChars source.toList).count '\n' = 1 + 1 := by
  intro source tokens
  have htokens : tokenize source = .ok tokens := by decide +kernel
  obtain ⟨-, hcount, -⟩ := lineFeeds_of_tokenize htokens
  exact ⟨htokens, rfl, hcount.trans (by decide +kernel)⟩

/-- A string may go on behind the end of its line, and then a line feed is no line break. -/
theorem exists_lineFeed_in_string :
    ¬ ∀ (source : String) (tokens : List Token), tokenize source = .ok tokens →
      tokens.countP Token.isNewLine = (Newline.normalizeChars source.toList).count '\n' := by
  intro h
  have htokens : tokenize "\"a\\\nb\"" = .ok [⟨.string "a\\\nb", ⟨0, 6⟩⟩, .endOfFile] := by
    decide +kernel
  have heq := h _ _ htokens
  exact absurd heq (by decide +kernel)

end FormulaSyntax
