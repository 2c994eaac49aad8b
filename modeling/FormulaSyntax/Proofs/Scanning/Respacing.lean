import FormulaSyntax.Proofs.Scanning.LineBreaks
import FormulaSyntax.Proofs.Scanning.NumberLiterals

/-!
# Other blanks between the tokens

A lexeme is delimited with a look at up to two characters behind it. Still its word is complete in
itself: **with the word of every token taken out of a source, and any blanks put between the words,
the same lexemes are read again** (`tokenize_respace`). So the scanner never takes a word for what
it is because of what was behind it.

`Written` says which words lexemes have, with no regard to what is behind. A word of it was read
wherever a lexeme was (`exists_written`), and it is read as its lexeme in front of all that closes it
(`lexeme_of_written`). For number literals this is a matter of longest words: no word of their parts
has a closer in it, so a longest word remains one when the text is cut behind the literal.
-/

set_option autoImplicit false

namespace FormulaSyntax

open Window (beginsFraction radixOf?)

/-! ## Cutting a literal out of a text -/

section Cutting

variable {language : List Char → Prop} {text word kept others behind more : List Char}

/-- No word of the language has a closer in it. -/
def Unclosed (language : List Char → Prop) : Prop :=
  ∀ word, language word → ∀ c ∈ word, isCloser c = false

theorem isCloser_of_isDigit {c : Char} (h : c.isDigit = true) : isCloser c = false := by
  rw [Bool.eq_false_iff]
  intro hc
  rw [eq_false_of_isCloser hc Char.isDigit rfl] at h
  exact nomatch h

theorem unclosed_grouped : Unclosed Grouped := by
  intro word h
  induction h with
  | nil => exact nofun
  | digit hc _ ih => exact List.forall_mem_cons.mpr ⟨isCloser_of_isDigit hc, ih⟩
  | separated hc _ ih =>
    exact List.forall_mem_cons.mpr ⟨rfl, List.forall_mem_cons.mpr ⟨isCloser_of_isDigit hc, ih⟩⟩

theorem unclosed_numeric : Unclosed Numeric :=
  fun word h => unclosed_grouped word h.grouped

theorem unclosed_digitsOf (base : Nat) : Unclosed (DigitsOf base) := by
  intro word h c hc
  rw [Bool.eq_false_iff]
  intro hcloser
  have hstop := (Window.seals_radixDigits base).stops c none hcloser
  simp [Window.radixDigits, h c hc] at hstop

theorem begins_of_closes (hb : Closes behind) (hmore : ∀ c ∈ more, isCloser c = false)
    (h : more <+: kept ++ behind) : more <+: kept := by
  rcases List.prefix_or_prefix_of_prefix h (List.prefix_append kept behind) with hbegins | ⟨tail, rfl⟩
  · exact hbegins
  · cases tail with
    | nil => simp
    | cons c tail =>
      obtain ⟨last, rfl⟩ := (List.prefix_append_right_inj kept).mp h
      have hcloser := hb c rfl
      rw [hmore c (by simp)] at hcloser
      exact nomatch hcloser

theorem Longest.cut (hlanguage : Unclosed language) (hb : Closes behind)
    (h : Longest language (word ++ (kept ++ others)) word) :
    Longest language (word ++ (kept ++ behind)) word := by
  refine .of_append h.mem ?_
  intro more hmore hbegins
  have hfree : ∀ c ∈ more, isCloser c = false :=
    fun c hc => hlanguage _ hmore c (List.mem_append_right word hc)
  exact h.eq_nil_of_append hmore
    ((begins_of_closes hb hfree hbegins).trans (List.prefix_append kept others))

theorem Longest.cut_end (hlanguage : Unclosed language) (hb : Closes behind)
    (h : Longest language text word) : Longest language (word ++ behind) word := by
  apply Longest.of_head hlanguage h.mem
  intro c hc hopen
  rw [hb c hc] at hopen
  exact nomatch hopen

theorem BeginsExponent.cut {e : Option Exponent} (hb : Closes behind) (h : BeginsExponent text e) :
    BeginsExponent (e.elim [] Exponent.chars ++ behind) e := by
  cases h with
  | none =>
    refine .none ?_
    intro c hc
    exact eq_false_of_isCloser (hb c hc) isExponentMark rfl
  | @unsigned mark text digits hmark hsign hdigits =>
    refine .unsigned hmark ?_ (hdigits.cut_end unclosed_grouped hb)
    intro c hc
    cases digits with
    | nil => exact ⟨ne_of_isCloser (hb c hc) rfl, ne_of_isCloser (hb c hc) rfl⟩
    | cons d digits =>
      obtain ⟨others, rfl⟩ := hdigits.begins
      exact hsign c hc
  | signed hmark hsign hdigits =>
    exact .signed hmark hsign (hdigits.cut_end unclosed_grouped hb)

/-- An exponent is no fraction. -/
theorem beginsFraction_of_exponent {e : Option Exponent} (hb : Closes behind)
    (h : BeginsExponent text e) :
    beginsFraction (e.elim [] Exponent.chars ++ behind) = false := by
  have hmark : ∀ {mark rest}, isExponentMark mark = true →
      beginsFraction (mark :: rest) = false := by
    intro mark rest hmark
    have hne : mark ≠ '.' := by
      rintro rfl
      exact absurd hmark (by decide)
    simp [beginsFraction, hne]
  cases h with
  | none =>
    rw [Bool.eq_false_iff]
    intro hpoint
    simp only [beginsFraction, Bool.and_eq_true, beq_iff_eq] at hpoint
    exact absurd rfl (ne_of_isCloser (hb _ hpoint.1) rfl)
  | unsigned h => exact hmark h
  | signed h => exact hmark h

theorem BeginsDecimal.cut {n : DecimalNumeral} (hb : Closes behind) (h : BeginsDecimal text n) :
    BeginsDecimal (n.chars ++ behind) n := by
  rw [DecimalNumeral.chars_eq]
  cases h with
  | @whole whole rest e hwhole hpoint hexponent =>
    obtain ⟨others, rfl⟩ := hexponent.chars_begin
    have hcut := hwhole.cut unclosed_numeric hb
    simp only [Option.elim_none, List.nil_append, List.append_assoc]
    exact .whole hcut (beginsFraction_of_exponent hb hexponent) (hexponent.cut hb)
  | @point whole rest hwhole hpoint hdigit =>
    have hpointed : Longest Numeric (whole ++ (['.'] ++ rest)) whole := hwhole
    have hcut := hpointed.cut unclosed_numeric hb
    simp only [Option.elim_some, Option.elim_none, List.append_nil, List.append_assoc,
      List.singleton_append]
    refine .point hcut ?_ ?_
    · simpa [beginsFraction] using hb.any_head? isNameStart rfl []
    · intro c hc
      exact eq_false_of_isCloser (hb c hc) Char.isDigit rfl
  | @fraction whole places rest e hwhole hplaces hexponent =>
    obtain ⟨others, rfl⟩ := hexponent.chars_begin
    have hkept : '.' :: (places ++ (e.elim [] Exponent.chars ++ others))
        = '.' :: (places ++ e.elim [] Exponent.chars) ++ others := by
      rw [List.cons_append, List.append_assoc]
    rw [hkept] at hwhole
    have hcut := hwhole.cut unclosed_numeric hb
    have hplacesCut := hplaces.cut unclosed_numeric hb
    simp only [Option.elim_some, List.append_assoc, List.cons_append] at hcut ⊢
    exact .fraction hcut hplacesCut (hexponent.cut hb)

theorem radixOf?_append (hb : Closes behind) (text : List Char) :
    radixOf? (text ++ behind) = radixOf? text := by
  have htext : (Window.ofText (text ++ behind)).text = text ++ behind := Window.text_ofText _
  rw [← Window.radix?_append hb htext,
    Window.radix?_append closes_nil (htext.trans (List.append_nil _).symm)]

theorem radixOf?_eq_none_of_append (h : radixOf? (text ++ others) = none) :
    radixOf? text = none := by
  match text with
  | [] => rfl
  | [c] => simp [radixOf?]
  | c :: d :: rest => exact h

/-- **A literal that a text begins with is one in front of all that closes it.** -/
theorem NumberLiteral.Begins.cut {literal : NumberLiteral} (hb : Closes behind)
    (h : literal.Begins text) : literal.Begins (literal.chars ++ behind) := by
  cases h with
  | radix hmark hdigits => exact .radix hmark (hdigits.cut_end (unclosed_digitsOf _) hb)
  | @decimal _ n hradix hn =>
    refine .decimal ?_ (hn.cut hb)
    obtain ⟨others, rfl⟩ := hn.chars_begin
    rw [NumberLiteral.chars, radixOf?_append hb]
    exact radixOf?_eq_none_of_append hradix

/-- No closer is part of an exponent. -/
theorem BeginsExponent.isCloser_eq_false {e : Option Exponent} (h : BeginsExponent text e) :
    ∀ c ∈ e.elim [] Exponent.chars, isCloser c = false := by
  have hclass : ∀ {c}, isExponentMark c = true → isCloser c = false := by
    intro c hc
    rw [Bool.eq_false_iff]
    intro hcloser
    rw [eq_false_of_isCloser hcloser isExponentMark rfl] at hc
    exact nomatch hc
  cases h with
  | none => exact nofun
  | unsigned hmark _ hdigits =>
    exact List.forall_mem_cons.mpr ⟨hclass hmark, unclosed_grouped _ hdigits.mem⟩
  | signed hmark hsign hdigits =>
    refine List.forall_mem_cons.mpr ⟨hclass hmark,
      List.forall_mem_cons.mpr ⟨?_, unclosed_grouped _ hdigits.mem⟩⟩
    rcases hsign with rfl | rfl
    · rfl
    · rfl

/-- **No closer is part of a number literal.** -/
theorem NumberLiteral.Begins.isCloser_eq_false {literal : NumberLiteral} (h : literal.Begins text) :
    ∀ c ∈ literal.chars, isCloser c = false := by
  cases h with
  | @radix mark _ digits r hmark hdigits =>
    have hmark : isCloser mark = false := by
      rw [Bool.eq_false_iff]
      intro hcloser
      rw [ofMark?_of_isCloser hcloser] at hmark
      cases hmark
    exact List.forall_mem_cons.mpr ⟨rfl,
      List.forall_mem_cons.mpr ⟨hmark, unclosed_digitsOf _ _ hdigits.mem⟩⟩
  | decimal _ hn =>
    rw [chars, DecimalNumeral.chars_eq]
    cases hn with
    | whole hwhole _ hexponent =>
      exact List.forall_mem_append.mpr
        ⟨unclosed_numeric _ hwhole.mem, hexponent.isCloser_eq_false⟩
    | point hwhole =>
      exact List.forall_mem_append.mpr
        ⟨unclosed_numeric _ hwhole.mem, List.forall_mem_cons.mpr ⟨rfl, List.forall_mem_nil _⟩⟩
    | fraction hwhole hplaces hexponent =>
      exact List.forall_mem_append.mpr ⟨unclosed_numeric _ hwhole.mem,
        List.forall_mem_append.mpr ⟨List.forall_mem_cons.mpr ⟨rfl, unclosed_numeric _ hplaces.mem⟩,
          hexponent.isCloser_eq_false⟩⟩

end Cutting

/-! ## Words that lexemes are written as -/

/-- A word as which a lexeme is written, whatever is behind it. Of number literals `Spells` has those
    only in which every digit stands for itself. -/
inductive Written : List Char → Lexeme → Prop
  | spelled {word : List Char} {l : Lexeme} : Spells word l → Written word l
  | number {text : List Char} {literal : NumberLiteral} {x : Binary64} :
      literal.Begins text → literal.outcome = .ok x → Written literal.chars (.number x)

theorem Written.ne_endOfFile {word : List Char} {l : Lexeme} (h : Written word l) :
    l ≠ .symbol .endOfFile := by
  cases h with
  | spelled hspells => exact hspells.ne_endOfFile
  | number => exact nofun

theorem Closes.endsBefore {behind : List Char} (hb : Closes behind) (l : Lexeme) :
    l.EndsBefore behind := by
  intro c hc
  exact l.endsAt_of (eq_false_of_isCloser (hb c hc) isNamePart rfl)
    (ne_of_isCloser (hb c hc) rfl) (ne_of_isCloser (hb c hc) rfl)

/-- A symbol of one character that no equals sign makes another one ends in front of any. -/
theorem Symbol.joinsEquals_of_ofChar? {c : Char} {s : Symbol} (hs : ofChar? c = some s)
    (hnone : withEquals? c = none) : s.joinsEquals = false := by
  unfold ofChar? at hs
  split at hs
  case h_18 => exact nomatch hs
  all_goals
    obtain rfl := Option.some.inj hs
    first
    | rfl
    | exact nomatch hnone

namespace Window

variable {w : Window} {c : Char} {rest word gap behind : List Char} {l : Lexeme}

theorem exists_written_of_name (hc : isNameStart c = true) (h : w.text = c :: rest) :
    ∃ word behind, w.text = word ++ behind ∧
      Spells word (.ofName (String.ofList word)) ∧
      (Lexeme.ofName (String.ofList word)).EndsBefore behind ∧
      lexeme c w = (.ok (.ofName (String.ofList word)), w.pass word.length) := by
  have htext : w.text = (c :: rest.takeWhile isNamePart) ++ rest.dropWhile isNamePart := by
    rw [List.cons_append, List.takeWhile_append_dropWhile, h]
  have hothers : ∀ d ∈ rest.takeWhile isNamePart, isNamePart d = true :=
    List.all_eq_true.mp List.all_takeWhile
  have hbehind : ∀ d ∈ (rest.dropWhile isNamePart).head?, isNamePart d = false := by
    intro d hd
    have hhead := List.head?_dropWhile_not isNamePart rest
    rw [hd] at hhead
    simpa using hhead
  refine ⟨_, _, htext, .name hc hothers, ?_, ?_⟩
  · intro d hd
    rw [Lexeme.endsAt_ofName, hbehind d hd]
    rfl
  · rw [lexeme, if_pos hc]
    exact nameLexeme_of_text htext (isNamePart_of_mem_cons hc hothers) hbehind

theorem exists_literal_of_digit (hc : c.isDigit = true) (h : w.text = c :: rest)
    (hl : (lexeme c w).1 = .ok l) :
    ∃ (literal : NumberLiteral) (behind : List Char) (x : Binary64),
      w.text = literal.chars ++ behind ∧ literal.Begins w.text ∧ literal.result behind = .ok x ∧
      l = .number x ∧ (lexeme c w).2 = w.pass literal.chars.length := by
  obtain ⟨literal, hliteral⟩ := NumberLiteral.exists_begins hc rest
  rw [← h] at hliteral
  obtain ⟨behind, hbehind⟩ := hliteral.chars_begin
  have hread : lexeme c w = ((placedAt w.position (literal.result behind)).map .number,
      w.pass literal.chars.length) := by
    simp [lexeme, isNameStart_of_isDigit hc, hc, number_of_begins hliteral hbehind.symm]
  rw [hread] at hl ⊢
  cases hresult : literal.result behind with
  | error e =>
    rw [hresult] at hl
    cases hl
  | ok x =>
    rw [hresult] at hl
    exact ⟨literal, behind, x, hbehind.symm, hliteral, hresult, (Except.ok.inj hl).symm, rfl⟩

theorem exists_written_of_symbol (h : w.text = c :: rest) (hl : (symbolLexeme c w).1 = .ok l) :
    ∃ word behind, w.text = word ++ behind ∧ Spells word l ∧ l.EndsBefore behind ∧
      (symbolLexeme c w).2 = w.pass word.length := by
  unfold symbolLexeme at hl ⊢
  split at hl
  · next s hs =>
    obtain rfl : .symbol s = l := Except.ok.inj hl
    split at hs
    · next hequals =>
      rw [following?_of_text h] at hequals
      obtain ⟨others, rfl⟩ := List.head?_eq_some_iff.mp hequals
      obtain ⟨hne, hspelling, hjoins⟩ :
          s ≠ .endOfFile ∧ s.spelling.toList = [c, '='] ∧ s.joinsEquals = false := by
        unfold Symbol.withEquals? at hs
        split at hs <;> simp at hs <;> subst hs <;> decide
      refine ⟨_, others, ?_, .symbol hne, ?_, ?_⟩
      · rw [hspelling, h]
        rfl
      · intro d hd
        rw [Lexeme.endsAt, hjoins]
        rfl
      · rw [hspelling]
        rfl
    · cases hs
  · next hnone =>
    split at hl
    · next s hs =>
      obtain rfl : .symbol s = l := Except.ok.inj hl
      have hspelling : s.spelling.toList = [c] := by
        rw [Symbol.spelling_of_ofChar? hs, String.toList_singleton]
      have hne : s ≠ .endOfFile := by
        rintro rfl
        cases hspelling
      refine ⟨_, rest, ?_, .symbol hne, ?_, ?_⟩
      · rw [hspelling, h]
        rfl
      · intro d hd
        rw [Lexeme.endsAt, Bool.not_eq_true', Bool.and_eq_false_iff, beq_eq_false_iff_ne]
        apply Decidable.or_iff_not_imp_right.mpr
        intro hequals
        rw [following?_of_text h, hd, Decidable.not_not.mp hequals, if_pos rfl] at hnone
        exact Symbol.joinsEquals_of_ofChar? hs hnone
      · rw [hspelling]
        rfl
    · cases hl

/-- **A lexeme is read from a word as which it is written.** -/
theorem exists_written (h : w.text = c :: rest) (hl : (lexeme c w).1 = .ok l) :
    ∃ word behind, w.text = word ++ behind ∧ Written word l ∧
      (lexeme c w).2 = w.pass word.length := by
  by_cases hname : isNameStart c = true
  · obtain ⟨word, behind, hsplit, hspells, -, hread⟩ := exists_written_of_name hname h
    rw [hread] at hl ⊢
    obtain rfl := Except.ok.inj hl
    exact ⟨word, behind, hsplit, .spelled hspells, rfl⟩
  · by_cases hdigit : c.isDigit = true
    · obtain ⟨literal, behind, x, hsplit, hliteral, hresult, rfl, hpass⟩ :=
        exists_literal_of_digit hdigit h hl
      exact ⟨_, behind, hsplit, .number hliteral (NumberLiteral.outcome_of_result hresult), hpass⟩
    · by_cases hquote : c = '"' ∨ c = '\''
      · obtain ⟨body, content, behind, hbody, rfl, hsplit, hpass⟩ := exists_body_of_lexeme hquote h hl
        exact ⟨_, behind, hsplit, .spelled (.string hquote hbody), hpass⟩
      · have hlexeme : lexeme c w = symbolLexeme c w := by
          rw [lexeme, if_neg hname, if_neg hdigit, if_neg hquote]
        rw [hlexeme] at hl ⊢
        obtain ⟨word, behind, hsplit, hspells, -, hread⟩ := exists_written_of_symbol h hl
        exact ⟨word, behind, hsplit, .spelled hspells, hread⟩

/-- **A written word is read as its lexeme in front of all that closes it.** -/
theorem lexeme_of_written (hword : Written word l) (hb : Closes behind)
    (h : w.text = word ++ behind) :
    ∃ c others, word = c :: others ∧ isBlank c = false ∧
      lexeme c w = (.ok l, w.pass word.length) := by
  cases hword with
  | spelled hspells => exact lexeme_of_spells hspells h (hb.endsBefore l)
  | @number _ literal x hliteral houtcome =>
    obtain ⟨c, others, hcons, hc⟩ := hliteral.exists_digit
    have hresult : literal.result behind = .ok x := by
      have hseparator : behind.head? ≠ some '_' :=
        fun heq => absurd rfl (ne_of_isCloser (hb _ heq) rfl)
      simp only [NumberLiteral.result, houtcome, if_neg hseparator]
    have hbegins := hliteral.cut hb
    rw [← h] at hbegins
    refine ⟨c, others, hcons, isBlank_of_isNamePart (isNamePart_iff.mpr (.inr hc)), ?_⟩
    simp [lexeme, isNameStart_of_isDigit hc, hc, number_of_begins hbegins h, hresult, Except.map]

/-- Blanks, and a word behind them that is read as a lexeme, are the next token. -/
theorem nextToken_of_lexeme {others : List Char} (hgap : ∀ c ∈ gap, isBlank c = true)
    (hc : isBlank c = false) (hword : word = c :: others) (h : w.text = gap ++ (word ++ behind))
    (hread : lexeme c (w.pass gap.length) = (.ok l, (w.pass gap.length).pass word.length)) :
    w.nextToken = (.ok ⟨l, ⟨w.position + gap.length, w.position + gap.length + word.length⟩⟩,
      w.pass (gap.length + word.length)) := by
  have hstop := position_pass_of_text (text_pass_of_text h)
  rw [position_pass_of_text h, pass_pass] at hstop
  rw [hword, List.cons_append] at h
  rw [nextToken_of_gap hgap hc h, hread]
  simp only [Except.map, spanFrom, pass_pass, hstop]

theorem nextToken_of_written (hgap : ∀ c ∈ gap, isBlank c = true) (hword : Written word l)
    (hb : Closes behind) (h : w.text = gap ++ (word ++ behind)) :
    w.nextToken = (.ok ⟨l, ⟨w.position + gap.length, w.position + gap.length + word.length⟩⟩,
      w.pass (gap.length + word.length)) := by
  obtain ⟨c, others, hcons, hc, hread⟩ := lexeme_of_written hword hb (text_pass_of_text h)
  exact nextToken_of_lexeme hgap hc hcons h hread

theorem written_nextToken {text : List Char} (h : w.Inside text) {t : Token}
    (ht : w.nextToken.1 = .ok t) (hne : t ≠ .endOfFile) : Written (t.span.slice text) t.lexeme := by
  rcases h.exists_lexeme_of_nextToken ht with heq | ⟨v, c, rest, htext, hl, hslice⟩
  · exact absurd heq hne
  · obtain ⟨word, behind, hsplit, hword, hpass⟩ := exists_written htext hl
    have hle : word.length ≤ v.text.length := by
      rw [hsplit, List.length_append]
      exact Nat.le_add_right _ _
    rwa [hslice _ hle hpass, hsplit, List.take_left]

end Window

/-- The slices of all tokens of a source are words as which lexemes are written. -/
theorem written_of_tokenize {source : String} {tokens : List Token}
    (h : tokenize source = .ok tokens) :
    ∀ t ∈ tokens, t ≠ .endOfFile →
      Written (t.span.slice (Newline.normalizeChars source.toList)) t.lexeme := by
  have hfresh := Window.inside_ofFeed (.ofList (Newline.normalizeChars source.toList))
  rw [Feed.live_ofList] at hfresh
  intro t ht
  apply hfresh.forall_mem_answers (fun v hv t => Window.written_nextToken hv)
  rw [← Window.ofText, tokenize_eq_ok_iff.mp h]
  exact List.mem_map_of_mem ht

theorem Written.normalizeChars_append {word : List Char} {l : Lexeme} (h : Written word l)
    (rest : List Char) :
    Newline.normalizeChars (word ++ rest) = word ++ Newline.normalizeChars rest := by
  cases h with
  | spelled hspells => exact hspells.normalizeChars_append rest
  | number hliteral _ =>
    apply FormulaSyntax.normalizeChars_append
    intro hmem
    exact absurd (hliteral.isCloser_eq_false _ hmem) (by decide)

/-! ## Slices with other blanks between them -/

/-- The text of tokens with new blanks in front of each: the slices that they have in a text. -/
def respace (text : List Char) : List (List Char × Token) → List Char
  | [] => []
  | (gap, t) :: rest => gap ++ (t.span.slice text ++ respace text rest)

/-- The same tokens at the places where their slices then stand. -/
def respaced (text : List Char) (position : Nat) : List (List Char × Token) → List Token
  | [] => []
  | (gap, t) :: rest =>
    let start := position + gap.length
    let stop := start + (t.span.slice text).length
    ⟨t.lexeme, ⟨start, stop⟩⟩ :: respaced text stop rest

section Respacing

variable {text last : List Char} {spacing : List (List Char × Token)}

/-- The gaps are blank, and none of them is empty between two tokens. -/
structure Spaced (spacing : List (List Char × Token)) : Prop where
  isBlank_gap : ∀ s ∈ spacing, ∀ c ∈ s.1, isBlank c = true
  gap_ne_nil : ∀ s ∈ spacing.tail, s.1 ≠ []

theorem Spaced.tail {s : List Char × Token} (h : Spaced (s :: spacing)) : Spaced spacing where
  isBlank_gap := fun s hs => h.isBlank_gap s (List.mem_cons_of_mem _ hs)
  gap_ne_nil := fun s hs => h.gap_ne_nil s (List.mem_of_mem_tail hs)

theorem isCloser_of_isBlank {c : Char} (h : isBlank c = true) : isCloser c = true := by
  rw [isCloser, h]
  rfl

/-- What is behind a token closes it. -/
theorem Spaced.closes {s : List Char × Token} (h : Spaced (s :: spacing))
    (hlast : ∀ c ∈ last, isBlank c = true) : Closes (respace text spacing ++ last) := by
  intro c hc
  apply isCloser_of_isBlank
  match spacing with
  | [] => exact hlast c (List.mem_of_mem_head? hc)
  | (gap, t) :: rest =>
    cases gap with
    | nil => exact absurd rfl (h.gap_ne_nil _ List.mem_cons_self)
    | cons d gap =>
      obtain rfl : d = c := Option.some.inj hc
      exact h.isBlank_gap _ (List.mem_cons_of_mem _ List.mem_cons_self) d List.mem_cons_self

theorem Window.answers_of_respace (hspaced : Spaced spacing) (hlast : ∀ c ∈ last, isBlank c = true)
    (hwords : ∀ s ∈ spacing, Written (s.2.span.slice text) s.2.lexeme)
    {w : Window} (h : w.text = respace text spacing ++ last) :
    w.answers = (respaced text w.position spacing ++ [Token.endOfFile]).map .ok := by
  induction spacing generalizing w with
  | nil =>
    have hnext := nextToken_of_blanks hlast h
    rw [answers_of_last (by rw [hnext]; rfl), hnext]
    rfl
  | cons s spacing ih =>
    obtain ⟨gap, t⟩ := s
    have hword := hwords _ List.mem_cons_self
    have hothers := fun s hs => hwords s (List.mem_cons_of_mem _ hs)
    rw [respace, List.append_assoc, List.append_assoc] at h
    have hnext := nextToken_of_written (hspaced.isBlank_gap _ List.mem_cons_self) hword
      (hspaced.closes hlast) h
    have hrest : (w.pass (gap.length + (t.span.slice text).length)).text
        = respace text spacing ++ last := by
      rw [← pass_pass]
      exact text_pass_of_text (text_pass_of_text h)
    have hposition : (w.pass (gap.length + (t.span.slice text).length)).position
        = w.position + gap.length + (t.span.slice text).length := by
      rw [← pass_pass, position_pass_of_text (text_pass_of_text h), position_pass_of_text h]
    rw [answers_of_token hnext hword.ne_endOfFile, ih hspaced.tail hothers hrest, hposition]
    rfl

theorem normalizeChars_gap {gap : List Char} (hgap : ∀ c ∈ gap, isBlank c = true)
    (more : List Char) :
    Newline.normalizeChars (gap ++ more) = gap ++ Newline.normalizeChars more := by
  apply normalizeChars_append
  intro hmem
  exact absurd (hgap _ hmem) (by decide)

/-- The text of the slices is its own normalized form. -/
theorem normalizeChars_respace (hspaced : Spaced spacing) (hlast : ∀ c ∈ last, isBlank c = true)
    (hwords : ∀ s ∈ spacing, Written (s.2.span.slice text) s.2.lexeme) :
    Newline.normalizeChars (respace text spacing ++ last) = respace text spacing ++ last := by
  induction spacing with
  | nil =>
    have hblank := normalizeChars_gap hlast []
    rw [List.append_nil] at hblank
    exact hblank.trans (List.append_nil last)
  | cons s spacing ih =>
    obtain ⟨gap, t⟩ := s
    have hword := hwords _ List.mem_cons_self
    have hothers := fun s hs => hwords s (List.mem_cons_of_mem _ hs)
    rw [respace, List.append_assoc, List.append_assoc,
      normalizeChars_gap (hspaced.isBlank_gap _ List.mem_cons_self),
      hword.normalizeChars_append, ih hspaced.tail hothers]

/-- The places of the tokens are those of their slices. The induction is on the tokens; what stands in
    front of them is generalised. -/
theorem map_slice_respaced (front : List Char) :
    (respaced text front.length spacing).map
        (fun t => t.span.slice (front ++ (respace text spacing ++ last)))
      = spacing.map fun s => s.2.span.slice text := by
  induction spacing generalizing front with
  | nil => rfl
  | cons s spacing ih =>
    obtain ⟨gap, t⟩ := s
    have hrest := ih (front ++ (gap ++ t.span.slice text))
    have hsplit : front ++ (gap ++ t.span.slice text) ++ (respace text spacing ++ last)
        = front ++ (respace text ((gap, t) :: spacing) ++ last) := by
      simp only [respace, List.append_assoc]
    have hlength : (front ++ (gap ++ t.span.slice text)).length
        = front.length + gap.length + (t.span.slice text).length := by
      simp only [List.length_append, Nat.add_assoc]
    have hfirst : Span.slice ⟨front.length + gap.length,
          front.length + gap.length + (t.span.slice text).length⟩
        (front ++ (respace text ((gap, t) :: spacing) ++ last)) = t.span.slice text := by
      rw [Span.slice, Nat.add_sub_cancel_left, respace, ← List.length_append, List.append_assoc,
        List.append_assoc, ← List.append_assoc front, List.drop_left, List.take_left]
    rw [hsplit, hlength] at hrest
    rw [respaced, List.map_cons, List.map_cons, hfirst, hrest]

theorem tokenize_of_spaced (hspaced : Spaced spacing) (hlast : ∀ c ∈ last, isBlank c = true)
    (hwords : ∀ s ∈ spacing, Written (s.2.span.slice text) s.2.lexeme) :
    tokenize (String.ofList (respace text spacing ++ last))
      = .ok (respaced text 0 spacing ++ [.endOfFile]) := by
  rw [tokenize_eq_ok_iff, String.toList_ofList, normalizeChars_respace hspaced hlast hwords,
    Window.answers_of_respace hspaced hlast hwords (Window.text_ofText _), Window.position_ofText]

end Respacing

/-! ## Main result -/

/-- **The tokens of a source keep their lexemes when other blanks are put between them**, if none of
    the new gaps is empty, and each of them stands where its slice then is. The slice of a token alone
    is that token. -/
theorem tokenize_respace {source : String} {tokens : List Token} (h : tokenize source = .ok tokens)
    {spacing : List (List Char × Token)} {last : List Char}
    (htokens : spacing.map Prod.snd = tokens.filter fun t => !t.isEndOfFile)
    (hspaced : Spaced spacing) (hlast : ∀ c ∈ last, isBlank c = true) :
    let text := Newline.normalizeChars source.toList
    let others := respace text spacing ++ last
    tokenize (String.ofList others) = .ok (respaced text 0 spacing ++ [.endOfFile]) ∧
      (respaced text 0 spacing).map (fun t => t.span.slice others)
        = spacing.map (fun s => s.2.span.slice text) ∧
      ∀ s ∈ spacing, tokenize (String.ofList (s.2.span.slice text))
        = .ok [⟨s.2.lexeme, ⟨0, (s.2.span.slice text).length⟩⟩, .endOfFile] := by
  intro text others
  have hwords : ∀ s ∈ spacing, Written (s.2.span.slice text) s.2.lexeme := by
    intro s hs
    have hmem : s.2 ∈ tokens.filter fun t => !t.isEndOfFile := by
      rw [← htokens]
      exact List.mem_map_of_mem hs
    obtain ⟨ht, hne⟩ := List.mem_filter.mp hmem
    apply written_of_tokenize h s.2 ht
    intro heq
    rw [heq] at hne
    exact nomatch hne
  refine ⟨tokenize_of_spaced hspaced hlast hwords, map_slice_respaced [], ?_⟩
  intro s hs
  have hone : Spaced [([], s.2)] := by
    refine ⟨?_, nofun⟩
    intro s hs
    rw [List.mem_singleton.mp hs]
    exact nofun
  have hword : ∀ u ∈ [(([] : List Char), s.2)], Written (u.2.span.slice text) u.2.lexeme := by
    intro u hu
    rw [List.mem_singleton.mp hu]
    exact hwords s hs
  have hnil : ∀ c ∈ ([] : List Char), isBlank c = true := nofun
  have halone := tokenize_of_spaced hone hnil hword
  simpa [respace, respaced] using halone

/-- A number, a point and a name, with and without blanks between them. -/
theorem tokenize_respace_member :
    let spacing : List (List Char × Token) := [([], ⟨.number (Binary64.ofNat 1), ⟨0, 1⟩⟩),
      ([' '], ⟨.symbol .dot, ⟨1, 2⟩⟩), (['\t'], ⟨.name "e5", ⟨2, 4⟩⟩)]
    tokenize "1.e5" = .ok (spacing.map Prod.snd ++ [.endOfFile]) ∧
      tokenize "1 .\te5 " = .ok [⟨.number (Binary64.ofNat 1), ⟨0, 1⟩⟩, ⟨.symbol .dot, ⟨2, 3⟩⟩,
        ⟨.name "e5", ⟨4, 6⟩⟩, .endOfFile] := by
  intro spacing
  have htokens : tokenize "1.e5" = .ok (spacing.map Prod.snd ++ [.endOfFile]) := by decide +kernel
  have hspaced : Spaced spacing := ⟨by simp [spacing, isBlank], by simp [spacing]⟩
  have hlast : ∀ c ∈ [' '], isBlank c = true := List.forall_mem_singleton.mpr rfl
  obtain ⟨hread, -, -⟩ := tokenize_respace htokens rfl hspaced hlast
  refine ⟨htokens, ?_⟩
  exact hread

end FormulaSyntax
