import FormulaSyntax.Proofs.Scanning.Pieces

/-!
# Which texts are string literals

Behind its opening quote a string literal is a sequence of units, characters that stand for
themselves and pairs of a backslash and any character, and the closing quote behind them. `Body`
says what such a sequence is and what it means. **A text that begins with a quote is read as a
string if and only if it has this form** (`nextToken_quotation`). If it has not, the scan ends
behind the longest sequence of units, in front of a line feed or at the end of the text.

Both halves turn on one fact, `Body.exists_more`. The units of a text are read off from the left
with no choice, so where one sequence cannot go on, every other one is a beginning of it. A sequence
cannot go on in front of the quote, of a line feed, of the end, and of a backslash with nothing
behind it.
-/

set_option autoImplicit false

namespace FormulaSyntax

/-- What is left of a string that is not terminated: nothing, a lone backslash, or what a line feed
    begins. -/
def Unterminated (rest : List Char) : Prop :=
  rest = [] ∨ rest = ['\\'] ∨ rest.head? = some '\n'

/-- No unit of a string stands in front of this text. -/
def EndsUnits (quote : Char) (rest : List Char) : Prop :=
  Unterminated rest ∨ rest.head? = some quote

variable {quote : Char}

theorem EndsUnits.not_plain {c : Char} {rest : List Char} (hquote : c ≠ quote) (hslash : c ≠ '\\')
    (hbreak : c ≠ '\n') : ¬ EndsUnits quote (c :: rest) := by
  simp [EndsUnits, Unterminated, hquote, hslash, hbreak]

theorem EndsUnits.not_pair {letter : Char} {rest : List Char} (hquote : quote ≠ '\\') :
    ¬ EndsUnits quote ('\\' :: letter :: rest) := by
  simp [EndsUnits, Unterminated, hquote.symm]

/-- **Units are read with no choice**: all sequences of them that a text begins with are beginnings of
    the one behind which no unit stands. -/
theorem Body.exists_more (hquote : quote ≠ '\\') {units content : List Char}
    (h : Body quote units content) {all allContent rest others : List Char}
    (hall : Body quote all allContent) (hend : EndsUnits quote rest)
    (htext : all ++ rest = units ++ others) :
    ∃ more moreContent, Body quote more moreContent ∧ all = units ++ more ∧
      allContent = content ++ moreContent := by
  induction h generalizing all allContent with
  | nil => exact ⟨all, allContent, hall, rfl, rfl⟩
  | @plain c units content hne hslash hbreak _ ih =>
    cases hall with
    | nil =>
      obtain rfl : rest = c :: (units ++ others) := htext
      exact absurd hend (EndsUnits.not_plain hne hslash hbreak)
    | plain _ _ _ hall =>
      obtain ⟨rfl, hbehind⟩ := List.cons.inj htext
      obtain ⟨more, moreContent, hmore, rfl, rfl⟩ := ih hall hbehind
      exact ⟨more, moreContent, hmore, rfl, rfl⟩
    | pair => exact absurd (List.cons.inj htext).1.symm hslash
  | @pair letter units content _ ih =>
    cases hall with
    | nil =>
      obtain rfl : rest = '\\' :: letter :: (units ++ others) := htext
      exact absurd hend (EndsUnits.not_pair hquote)
    | plain _ hslash _ _ => exact absurd (List.cons.inj htext).1 hslash
    | pair _ hall =>
      obtain ⟨rfl, hbehind⟩ := List.cons.inj (List.cons.inj htext).2
      obtain ⟨more, moreContent, hmore, rfl, rfl⟩ := ih hall hbehind
      exact ⟨more, moreContent, hmore, rfl, (List.append_assoc ..).symm⟩

/-- So there is one place at most where a string can be closed, and it means one thing. -/
theorem Body.eq_of_closed (hquote : quote ≠ '\\') {body content body' content' rest : List Char}
    (h : Body quote body content) (hrest : body ++ [quote] <+: rest)
    (h' : Body quote body' content') (hrest' : body' ++ [quote] <+: rest) :
    body' = body ∧ content' = content := by
  obtain ⟨behind, rfl⟩ := hrest
  obtain ⟨behind', htext⟩ := hrest'
  simp only [List.append_assoc, List.singleton_append] at htext
  have hend : ∀ behind, EndsUnits quote (quote :: behind) := fun _ => .inr rfl
  obtain ⟨more, moreContent, hmore, hbody, hcontent⟩ := h'.exists_more hquote h (hend behind) htext.symm
  obtain ⟨more', -, -, hbody', -⟩ := h.exists_more hquote h' (hend behind') htext
  obtain rfl : more = [] := by
    have hlength := congrArg List.length hbody
    rw [hbody', List.length_append, List.length_append] at hlength
    exact List.eq_nil_of_length_eq_zero (by omega)
  cases hmore
  rw [hbody, hcontent, List.append_nil, List.append_nil]
  exact ⟨rfl, rfl⟩

namespace Window

variable {w : Window}

/-- A scan that finds no closing quote has passed all units of the text, and a backslash that ends
    it. -/
theorem exists_units_of_quotationBody {before : List Char}
    (h : (quotationBody quote w before).1 = none) :
    ∃ units content rest, Body quote units content ∧ w.text = units ++ rest ∧ Unterminated rest ∧
      (quotationBody quote w before).2
        = w.pass (units.length + if rest = ['\\'] then 1 else 0) := by
  fun_induction quotationBody quote w before with
  | case1 w before hc =>
    have htext : w.text = [] := by
      rwa [current?_eq_head?, List.head?_eq_none_iff] at hc
    exact ⟨[], [], [], .nil, htext, .inl rfl, rfl⟩
  | case2 => exact absurd h (Option.some_ne_none _)
  | case3 w before hl hc _ =>
    have htext : w.text = ['\\'] := by
      rw [current?_eq_head?, List.head?_eq_none_iff] at hl
      rw [text_of_current? hc, hl]
    exact ⟨[], [], ['\\'], .nil, htext, .inr (.inl rfl), rfl⟩
  | case4 w before letter hl hc _ ih =>
    obtain ⟨units, content, rest, hunits, htext, hrest, hpass⟩ := ih h
    refine ⟨'\\' :: letter :: units, _, rest, hunits.pair letter, ?_, hrest, ?_⟩
    · rw [text_of_current? hc, text_of_current? hl, htext]
      rfl
    · rw [hpass, ← pass_one w.advance, ← pass_one w, pass_pass, pass_pass]
      congr 1
      simp only [List.length_cons]
      omega
  | case5 w before hc =>
    have htext := text_of_current? hc
    have hne : w.text ≠ ['\\'] := by
      rw [htext]
      exact fun heq => absurd (List.cons.inj heq).1 (by decide)
    refine ⟨[], [], w.text, .nil, rfl, .inr (.inr ?_), ?_⟩
    · rw [htext]
      rfl
    · rw [if_neg hne]
      rfl
  | case6 w before c hc hquote hslash hbreak ih =>
    obtain ⟨units, content, rest, hunits, htext, hrest, hpass⟩ := ih h
    refine ⟨c :: units, c :: content, rest, hunits.plain hquote hslash hbreak, ?_, hrest, ?_⟩
    · rw [text_of_current? hc, htext]
      rfl
    · rw [hpass, ← pass_one w, pass_pass]
      congr 1
      simp only [List.length_cons]
      omega

/-- A text in quotes is scanned as a string. -/
theorem nextToken_of_quote {rest : List Char} (hquote : quote = '"' ∨ quote = '\'')
    (h : w.text = quote :: rest) :
    w.nextToken =
      ((quotation quote w).1.map fun content =>
        ⟨.string content, (quotation quote w).2.spanFrom w.position⟩, (quotation quote w).2) := by
  have hblank : isBlank quote = false := by
    rcases hquote with rfl | rfl
    · decide
    · decide
  rw [nextToken_of_head hblank h, lexeme_of_quote hquote]
  cases (quotation quote w).1 <;> rfl

theorem nextToken_of_closed {rest body content : List Char} (hquote : quote = '"' ∨ quote = '\'')
    (h : w.text = quote :: rest) (hbody : Body quote body content)
    (hclosed : body ++ [quote] <+: rest) :
    w.nextToken = (.ok ⟨.string (String.ofList content),
      ⟨w.position, w.position + (body.length + 2)⟩⟩, w.pass (body.length + 2)) := by
  obtain ⟨behind, rfl⟩ := hclosed
  have htext : w.text = quote :: (body ++ [quote]) ++ behind := h
  have hlength : (quote :: (body ++ [quote])).length = body.length + 2 := by simp
  have hposition := position_pass_of_text htext
  have hread := quotation_of_text (ne_slash_of_quote hquote) hbody htext
  rw [hlength] at hposition hread
  rw [nextToken_of_quote hquote h, hread]
  simp only [Except.map, spanFrom, hposition]

theorem nextToken_of_unclosed {rest : List Char} (hquote : quote = '"' ∨ quote = '\'')
    (h : w.text = quote :: rest)
    (hopen : ∀ body content, Body quote body content → ¬ body ++ [quote] <+: rest) :
    ∃ units content behind, Body quote units content ∧ rest = units ++ behind ∧
      Unterminated behind ∧
      let length := 1 + units.length + if behind = ['\\'] then 1 else 0
      w.nextToken = (.error ⟨.unterminatedString, ⟨w.position, w.position + length⟩⟩,
        w.pass length) := by
  have hadvance := text_advance_of_text h
  have hnone : (quotationBody quote w.advance []).1 = none := by
    rw [Option.eq_none_iff_forall_ne_some]
    intro result hresult
    obtain ⟨body, content, hbody, -, htext⟩ := exists_body_of_quotationBody hresult
    rw [hadvance] at htext
    refine hopen body content hbody ⟨(quotationBody quote w.advance []).2.text, ?_⟩
    rw [List.append_assoc]
    exact htext.symm
  obtain ⟨units, content, behind, hunits, htext, hbehind, hpass⟩ :=
    exists_units_of_quotationBody hnone
  rw [hadvance] at htext
  refine ⟨units, content, behind, hunits, htext, hbehind, ?_⟩
  intro length
  have hscan : quotationBody quote w.advance [] = (none, w.pass length) := by
    refine Prod.ext hnone ?_
    rw [hpass, ← pass_one w, pass_pass, ← Nat.add_assoc]
  have hle : length ≤ w.text.length := by
    have hlast : (if behind = ['\\'] then 1 else 0) ≤ behind.length := by
      split
      · next heq => rw [heq]; exact Nat.le_refl 1
      · exact Nat.zero_le _
    rw [h, htext, List.length_cons, List.length_append]
    omega
  rw [nextToken_of_quote hquote h]
  simp only [quotation, hscan, Except.map, spanFrom, position_pass hle]

/-! ## Main result -/

/-- **A text that begins with a quote is a string literal if and only if units and the closing quote
    follow**, which they do in one way at most. The literal is all of them, and it says what the
    units mean. Without a closing quote the error spans the longest sequence of units, and a
    backslash that is the last character of the text. -/
theorem nextToken_quotation {rest : List Char} (hquote : quote = '"' ∨ quote = '\'')
    (h : w.text = quote :: rest) :
    -- when there is a string
    ((∃ content span, w.nextToken.1 = .ok ⟨.string content, span⟩) ↔
      ∃ body content, Body quote body content ∧ body ++ [quote] <+: rest) ∧
    -- which string it is
    (∀ body content, Body quote body content → body ++ [quote] <+: rest →
      w.nextToken = (.ok ⟨.string (String.ofList content), ⟨w.position, w.position + (body.length + 2)⟩⟩,
        w.pass (body.length + 2)) ∧
      ∀ body' content', Body quote body' content' → body' ++ [quote] <+: rest →
        body' = body ∧ content' = content) ∧
    -- when there is none
    ((∀ body content, Body quote body content → ¬ body ++ [quote] <+: rest) →
      ∃ units content behind, Body quote units content ∧ rest = units ++ behind ∧
        Unterminated behind ∧
        (∀ units' content', Body quote units' content' → units' <+: rest →
          units'.length ≤ units.length) ∧
        let length := 1 + units.length + if behind = ['\\'] then 1 else 0
        w.nextToken = (.error ⟨.unterminatedString, ⟨w.position, w.position + length⟩⟩,
          w.pass length)) := by
  refine ⟨⟨?_, ?_⟩, ?_, ?_⟩
  · rintro ⟨content, span, hstring⟩
    -- Without a closing quote the scan would have failed.
    apply Classical.byContradiction
    intro hopen
    obtain ⟨units, -, behind, -, -, -, herror⟩ := nextToken_of_unclosed hquote h fun body content hbody
      hclosed => hopen ⟨body, content, hbody, hclosed⟩
    rw [herror] at hstring
    exact nomatch hstring
  · rintro ⟨body, content, hbody, hclosed⟩
    exact ⟨_, _, congrArg Prod.fst (nextToken_of_closed hquote h hbody hclosed)⟩
  · intro body content hbody hclosed
    refine ⟨nextToken_of_closed hquote h hbody hclosed, ?_⟩
    intro body' content' hbody' hclosed'
    exact hbody.eq_of_closed (ne_slash_of_quote hquote) hclosed hbody' hclosed'
  · intro hopen
    obtain ⟨units, content, behind, hunits, rfl, hbehind, herror⟩ :=
      nextToken_of_unclosed hquote h hopen
    refine ⟨units, content, behind, hunits, rfl, hbehind, ?_, herror⟩
    rintro units' content' hunits' ⟨others, htext⟩
    obtain ⟨more, -, -, rfl, -⟩ :=
      hunits'.exists_more (ne_slash_of_quote hquote) hunits (.inl hbehind) htext.symm
    rw [List.length_append]
    exact Nat.le_add_right _ _

/-- The first quote behind the opening one belongs to a unit, and so does a backslash that is no
    escape. -/
theorem nextToken_quotation_escaped :
    (ofText "'\\'\\q' x".toList).nextToken.1 = .ok ⟨.string "'\\q", ⟨0, 6⟩⟩ := by
  have hbody : Body '\'' ['\\', '\'', '\\', 'q'] ['\'', '\\', 'q'] :=
    .pair '\'' (.pair 'q' .nil)
  have hclosed : ['\\', '\'', '\\', 'q'] ++ ['\''] <+: "\\'\\q' x".toList := by decide
  have htext : (ofText "'\\'\\q' x".toList).text = '\'' :: "\\'\\q' x".toList := text_ofText _
  have hread := ((nextToken_quotation (.inr rfl) htext).2.1 _ _ hbody hclosed).1
  exact congrArg Prod.fst hread

-- The backslash takes the line feed along, so it is the end that is in the way.
example : (ofText "'a\\\n".toList).nextToken.1 = .error ⟨.unterminatedString, ⟨0, 4⟩⟩ := by
  decide +kernel

end Window

end FormulaSyntax
