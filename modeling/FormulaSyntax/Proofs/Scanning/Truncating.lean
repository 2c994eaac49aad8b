import FormulaSyntax.Proofs.Scanning.Bounds
import FormulaSyntax.Proofs.Scanning.Respacing

/-!
# A source without its error

A lexical error begins where the first bad lexeme does: **the text in front of it is tokenized by
itself, to the tokens that come before the error** (`tokenize_before_error`).

A text that is cut may well have other tokens than before. In `1.foo` there is a point behind the
number, but `1.` alone is one number. What the number scanner sees of the name there is all that
matters behind a cut, because any other lexeme ends where the text does. So a cut does no harm if
no name begins behind it (`NameFree`), and in front of an error none does, for names are never in
error.
-/

set_option autoImplicit false

namespace FormulaSyntax

open Window (beginsFraction radixOf?)

/-- No name begins here. -/
def NameFree (behind : List Char) : Prop := ∀ c ∈ behind.head?, isNameStart c = false

/-! ## Words in a text that is cut -/

section Cutting

variable {language : List Char → Prop} {text word kept behind : List Char}

theorem forall_mem_head?_of_append {P : Char → Prop} (h : ∀ c ∈ (kept ++ behind).head?, P c) :
    ∀ c ∈ kept.head?, P c := by
  cases kept with
  | nil => exact nofun
  | cons c kept => exact h

theorem Longest.of_cut (h : Longest language (word ++ (kept ++ behind)) word) :
    Longest language (word ++ kept) word := by
  rw [← List.append_assoc] at h
  exact ⟨h.mem, List.prefix_append word kept, fun other hother hbegins =>
    h.length_le other hother (hbegins.trans (List.prefix_append _ behind))⟩

theorem beginsFraction_append (hbehind : NameFree behind) (h : beginsFraction kept = true) :
    beginsFraction (kept ++ behind) = true := by
  match kept with
  | [] => exact nomatch h
  | [c] =>
    simp only [beginsFraction, Bool.and_eq_true] at h ⊢
    refine ⟨h.1, ?_⟩
    cases hc : behind.head? with
    | none => simp [hc]
    | some d => simp [hc, hbehind d hc]
  | c :: d :: rest => exact h

theorem BeginsExponent.of_cut {e : Option Exponent}
    (h : BeginsExponent (e.elim [] Exponent.chars ++ (kept ++ behind)) e) :
    BeginsExponent (e.elim [] Exponent.chars ++ kept) e := by
  generalize htext : e.elim [] Exponent.chars ++ (kept ++ behind) = text at h
  cases h with
  | none hnone =>
    subst htext
    exact .none (forall_mem_head?_of_append hnone)
  | @unsigned mark text digits hmark hsign hdigits =>
    obtain rfl : digits ++ (kept ++ behind) = text := (List.cons.inj htext).2
    rw [← List.append_assoc] at hsign
    exact .unsigned hmark (forall_mem_head?_of_append hsign) hdigits.of_cut
  | @signed mark sign text digits hmark hsign hdigits =>
    obtain rfl : digits ++ (kept ++ behind) = text := (List.cons.inj (List.cons.inj htext).2).2
    exact .signed hmark hsign hdigits.of_cut

theorem BeginsDecimal.of_cut {n : DecimalNumeral} (hbehind : NameFree behind)
    (h : BeginsDecimal (n.chars ++ (kept ++ behind)) n) : BeginsDecimal (n.chars ++ kept) n := by
  generalize htext : n.chars ++ (kept ++ behind) = text at h
  rw [DecimalNumeral.chars_eq] at htext ⊢
  cases h with
  | @whole whole rest e hwhole hpoint hexponent =>
    simp only [Option.elim_none, List.nil_append, List.append_assoc] at htext ⊢
    obtain rfl := List.append_cancel_left htext
    refine .whole ?_ ?_ hexponent.of_cut
    · rw [← List.append_assoc (e.elim [] Exponent.chars)] at hwhole
      exact hwhole.of_cut
    · rw [Bool.eq_false_iff]
      intro hfraction
      have hmore := beginsFraction_append hbehind hfraction
      rw [List.append_assoc, hpoint] at hmore
      exact nomatch hmore
  | @point whole rest hwhole hpoint hdigit =>
    simp only [Option.elim_some, Option.elim_none, List.append_nil, List.append_assoc,
      List.cons_append, List.nil_append] at htext ⊢
    obtain rfl := (List.cons.inj (List.append_cancel_left htext)).2
    refine .point ?_ ?_ (forall_mem_head?_of_append hdigit)
    · rw [← List.cons_append] at hwhole
      exact hwhole.of_cut
    · cases kept with
      | nil => rfl
      | cons c kept => exact hpoint
  | @fraction whole places rest e hwhole hplaces hexponent =>
    simp only [Option.elim_some, List.append_assoc, List.cons_append] at htext ⊢
    obtain rfl := List.append_cancel_left (List.cons.inj (List.append_cancel_left htext)).2
    refine .fraction ?_ ?_ hexponent.of_cut
    · rw [← List.append_assoc (e.elim [] Exponent.chars), ← List.append_assoc places,
        ← List.cons_append] at hwhole
      exact hwhole.of_cut
    · rw [← List.append_assoc (e.elim [] Exponent.chars)] at hplaces
      exact hplaces.of_cut

/-- **A literal that a text begins with is left in a text that is cut behind it.** -/
theorem NumberLiteral.Begins.of_cut {literal : NumberLiteral} (hbehind : NameFree behind)
    (h : literal.Begins (literal.chars ++ (kept ++ behind))) :
    literal.Begins (literal.chars ++ kept) := by
  generalize htext : literal.chars ++ (kept ++ behind) = text at h
  cases h with
  | @radix mark rest digits r hmark hdigits =>
    obtain rfl : digits ++ (kept ++ behind) = rest := (List.cons.inj (List.cons.inj htext).2).2
    exact .radix hmark hdigits.of_cut
  | decimal hradix hn =>
    subst htext
    refine .decimal ?_ (hn.of_cut hbehind)
    rw [← List.append_assoc] at hradix
    exact radixOf?_eq_none_of_append hradix

theorem NumberLiteral.result_of_cut {literal : NumberLiteral} {x : Binary64}
    (h : literal.result (kept ++ behind) = .ok x) : literal.result kept = .ok x := by
  have houtcome := outcome_of_result h
  simp only [result, houtcome] at h ⊢
  split at h
  · cases h
  · next hseparator =>
    rw [if_neg]
    intro hkept
    cases kept with
    | nil => cases hkept
    | cons c kept => exact hseparator hkept

end Cutting

namespace Window

variable {w : Window} {c : Char} {rest : List Char} {l : Lexeme}

/-- A name is never in error. -/
theorem nameFree_of_error {e : LexError} (h : (lexeme c w).1 = .error e) :
    NameFree (c :: rest) := by
  intro d hd
  obtain rfl : c = d := Option.some.inj hd
  rw [Bool.eq_false_iff]
  intro hname
  rw [lexeme, if_pos hname] at h
  cases h

/-- A lexeme is read from a word, and read from it again if the text is cut somewhere behind the
    word. -/
structure CutsBehind (w : Window) (c : Char) (l : Lexeme) (word behind : List Char) : Prop where
  text_eq : w.text = word ++ behind
  begins : ∃ others, word = c :: others
  written : Written word l
  read : lexeme c w = (.ok l, w.pass word.length)
  again : ∀ kept others, behind = kept ++ others → NameFree others →
    ∀ v : Window, v.text = word ++ kept → lexeme c v = (.ok l, v.pass word.length)

theorem cutsBehind_of_spells {word behind : List Char} (h : w.text = c :: rest)
    (hsplit : w.text = word ++ behind) (hword : Spells word l) (hends : l.EndsBefore behind) :
    CutsBehind w c l word behind := by
  have hread : ∀ (v : Window) (kept : List Char), l.EndsBefore kept → v.text = word ++ kept →
      (∃ others, word = c :: others) ∧ lexeme c v = (.ok l, v.pass word.length) := by
    intro v kept hkept hv
    obtain ⟨d, others, rfl, -, hlexeme⟩ := lexeme_of_spells hword hv hkept
    obtain rfl : d = c := (List.cons.inj (hsplit.symm.trans h)).1
    exact ⟨⟨others, rfl⟩, hlexeme⟩
  obtain ⟨hbegins, hlexeme⟩ := hread w behind hends hsplit
  refine ⟨hsplit, hbegins, .spelled hword, hlexeme, ?_⟩
  rintro kept others rfl - v hv
  exact (hread v kept (forall_mem_head?_of_append hends) hv).2

theorem cutsBehind_of_literal {literal : NumberLiteral} {behind : List Char} {x : Binary64}
    (h : w.text = c :: rest) (hsplit : w.text = literal.chars ++ behind)
    (hliteral : literal.Begins w.text) (hresult : literal.result behind = .ok x) :
    CutsBehind w c (.number x) literal.chars behind := by
  obtain ⟨d, others, hcons, hdigit⟩ := hliteral.exists_digit
  obtain rfl : d = c := by
    rw [hcons] at hsplit
    exact (List.cons.inj (hsplit.symm.trans h)).1
  have hread : ∀ (v : Window) (kept : List Char), literal.Begins (literal.chars ++ kept) →
      literal.result kept = .ok x → v.text = literal.chars ++ kept →
        lexeme d v = (.ok (.number x), v.pass literal.chars.length) := by
    intro v kept hbegins hkept hv
    rw [← hv] at hbegins
    simp [lexeme, isNameStart_of_isDigit hdigit, hdigit, number_of_begins hbegins hv, hkept,
      Except.map]
  rw [hsplit] at hliteral
  refine ⟨hsplit, ⟨others, hcons⟩, ?_, hread w behind hliteral hresult hsplit, ?_⟩
  · exact .number hliteral (NumberLiteral.outcome_of_result hresult)
  · rintro kept others rfl hothers v hv
    exact hread v kept (hliteral.of_cut hothers) (NumberLiteral.result_of_cut hresult) hv

/-- **What was read as a lexeme is read again in a text that is cut behind its word.** -/
theorem exists_cutsBehind (h : w.text = c :: rest) (hl : (lexeme c w).1 = .ok l) :
    ∃ word behind, CutsBehind w c l word behind := by
  by_cases hname : isNameStart c = true
  · obtain ⟨word, behind, hsplit, hword, hends, hread⟩ := exists_written_of_name hname h
    have heq : Lexeme.ofName (String.ofList word) = l := by
      rw [hread] at hl
      exact Except.ok.inj hl
    rw [heq] at hword hends
    exact ⟨word, behind, cutsBehind_of_spells h hsplit hword hends⟩
  · by_cases hdigit : c.isDigit = true
    · obtain ⟨literal, behind, x, hsplit, hliteral, hresult, rfl, -⟩ :=
        exists_literal_of_digit hdigit h hl
      exact ⟨_, behind, cutsBehind_of_literal h hsplit hliteral hresult⟩
    · by_cases hquote : c = '"' ∨ c = '\''
      · obtain ⟨body, content, behind, hbody, rfl, hsplit, -⟩ := exists_body_of_lexeme hquote h hl
        exact ⟨_, behind, cutsBehind_of_spells h hsplit (.string hquote hbody) fun _ _ => rfl⟩
      · rw [lexeme, if_neg hname, if_neg hdigit, if_neg hquote] at hl
        obtain ⟨word, behind, hsplit, hword, hends, -⟩ := exists_written_of_symbol h hl
        exact ⟨word, behind, cutsBehind_of_spells h hsplit hword hends⟩

/-! ## The text in front of the last answer -/

/-- What the answers for a text begin with: the end behind blanks, the error of the first lexeme, or
    its token. -/
theorem answers_cases (w : Window) :
    ∃ gap, (∀ c ∈ gap, isBlank c = true) ∧
      (w.text = gap ∧ w.answers = [.ok .endOfFile] ∨
      (∃ c rest e, w.text = gap ++ c :: rest ∧ NameFree (c :: rest) ∧
        e.span.start = w.position + gap.length ∧ w.answers = [.error e]) ∨
      ∃ c l word behind, isBlank c = false ∧ w.text = gap ++ (word ++ behind) ∧
        CutsBehind (w.pass gap.length) c l word behind ∧
        w.answers = .ok ⟨l, ⟨w.position + gap.length, w.position + gap.length + word.length⟩⟩
          :: (w.pass (gap.length + word.length)).answers) := by
  obtain ⟨gap, hgap, htext | ⟨c, rest, htext, hc⟩⟩ := exists_gap w.text
  · have hnext := nextToken_of_blanks hgap htext
    refine ⟨gap, hgap, .inl ⟨htext, ?_⟩⟩
    rw [answers_of_last (by rw [hnext]; rfl), hnext]
  · have hword : (w.pass gap.length).text = c :: rest := text_pass_of_text htext
    refine ⟨gap, hgap, .inr ?_⟩
    cases hl : (lexeme c (w.pass gap.length)).1 with
    | error e =>
      have hnext : w.nextToken.1 = .error e := by
        rw [nextToken_of_gap hgap hc htext, hl]
        rfl
      refine .inl ⟨c, rest, e, htext, nameFree_of_error hl, ?_, ?_⟩
      · rw [← position_pass_of_text htext]
        rcases marks_of_lexeme hl with hspan | ⟨-, hspan⟩
        · rw [hspan]
          rfl
        · rw [hspan]
      · rw [answers_of_last (by rw [hnext]; rfl), hnext]
    | ok l =>
      obtain ⟨word, behind, hcuts⟩ := exists_cutsBehind hword hl
      obtain ⟨others, hcons⟩ := hcuts.begins
      have hsplit : w.text = gap ++ (word ++ behind) := by
        rw [← hcuts.text_eq, hword, htext]
      have hnext := nextToken_of_lexeme hgap hc hcons hsplit hcuts.read
      exact .inr ⟨c, l, word, behind, hc, hsplit, hcuts,
        answers_of_token hnext hcuts.written.ne_endOfFile⟩

/-- A text, at a position, is read as tokens and nothing else, and no pair of a carriage return
    and a line feed begins in it. -/
structure ReadsAs (text : List Char) (position : Nat) (tokens : List Token) : Prop where
  answers_eq : ∀ v : Window, v.text = text → v.position = position →
    v.answers = (tokens ++ [Token.endOfFile]).map .ok
  normalizeChars_append : ∀ more,
    Newline.normalizeChars (text ++ more) = text ++ Newline.normalizeChars more

/-- What the last answer is about: an error begins at the position, and the end has nothing behind
    it. -/
def EndsAt (position : Nat) (behind : List Char) : Except LexError Token → Prop
  | .ok _ => behind = []
  | .error e => e.span.start = position

theorem readsAs_gap {gap : List Char} (hgap : ∀ c ∈ gap, isBlank c = true) (position : Nat) :
    ReadsAs gap position [] where
  answers_eq v hv _ := by
    have hnext := nextToken_of_blanks hgap hv
    rw [answers_of_last (by rw [hnext]; rfl), hnext]
    rfl
  normalizeChars_append := normalizeChars_gap hgap

theorem ReadsAs.cons {gap word kept behind others : List Char} {tokens : List Token}
    (hgap : ∀ c ∈ gap, isBlank c = true) (hc : isBlank c = false)
    (hcuts : CutsBehind w c l word behind) (hsplit : behind = kept ++ others)
    (hothers : NameFree others) {position : Nat}
    (h : ReadsAs kept (position + gap.length + word.length) tokens) :
    ReadsAs (gap ++ (word ++ kept)) position
      (⟨l, ⟨position + gap.length, position + gap.length + word.length⟩⟩ :: tokens) where
  answers_eq v hv hposition := by
    obtain ⟨more, hcons⟩ := hcuts.begins
    have htext := text_pass_of_text hv
    have hread := hcuts.again kept others hsplit hothers _ htext
    have hnext := nextToken_of_lexeme hgap hc hcons hv hread
    have hplace := position_pass_of_text htext
    rw [position_pass_of_text hv, pass_pass, hposition] at hplace
    have hrest := text_pass_of_text htext
    rw [pass_pass] at hrest
    rw [answers_of_token hnext hcuts.written.ne_endOfFile, h.answers_eq _ hrest hplace, hposition]
    rfl
  normalizeChars_append more := by
    rw [List.append_assoc, List.append_assoc, normalizeChars_gap hgap,
      hcuts.written.normalizeChars_append, h.normalizeChars_append, List.append_assoc,
      List.append_assoc]

/-- **The text in front of the last answer is read as the tokens before it.** The induction is on
    these tokens. -/
theorem exists_readsAs {before : List Token} {last : Except LexError Token}
    (h : w.answers = before.map .ok ++ [last]) :
    ∃ kept behind, w.text = kept ++ behind ∧ NameFree behind ∧
      EndsAt (w.position + kept.length) behind last ∧ ReadsAs kept w.position before := by
  induction before generalizing w with
  | nil =>
    obtain ⟨gap, hgap, ⟨htext, hanswers⟩ | ⟨c, rest, e, htext, hfree, hstart, hanswers⟩ |
      ⟨c, l, word, behind, -, -, -, hanswers⟩⟩ := answers_cases w
    · obtain rfl : .ok .endOfFile = last := (List.cons.inj (hanswers.symm.trans h)).1
      exact ⟨gap, [], by rw [htext, List.append_nil], nofun, rfl, readsAs_gap hgap _⟩
    · obtain rfl : .error e = last := (List.cons.inj (hanswers.symm.trans h)).1
      exact ⟨gap, c :: rest, htext, hfree, hstart, readsAs_gap hgap _⟩
    · -- Behind a token there is a further answer.
      have hmore := (List.cons.inj (hanswers.symm.trans h)).2
      rw [answers_eq] at hmore
      exact nomatch hmore
  | cons t before ih =>
    have hne : before.map Except.ok ++ [last] ≠ [] := by simp
    obtain ⟨gap, hgap, ⟨-, hanswers⟩ | ⟨c, rest, e, -, -, -, hanswers⟩ |
      ⟨c, l, word, behind, hc, htext, hcuts, hanswers⟩⟩ := answers_cases w
    · exact absurd (List.cons.inj (hanswers.symm.trans h)).2.symm hne
    · exact absurd (List.cons.inj (hanswers.symm.trans h)).2.symm hne
    · obtain ⟨htoken, hrest⟩ := List.cons.inj (hanswers.symm.trans h)
      obtain ⟨kept, others, hsplit, hfree, hlast, hreads⟩ := ih hrest
      have hbehind := text_pass_of_text (text_pass_of_text htext)
      have hplace := position_pass_of_text (text_pass_of_text htext)
      rw [position_pass_of_text htext] at hplace
      rw [pass_pass] at hbehind hplace
      rw [hbehind] at hsplit
      rw [hplace] at hreads hlast
      rw [← Except.ok.inj htoken]
      refine ⟨gap ++ (word ++ kept), others, ?_, hfree, ?_, hreads.cons hgap hc hcuts hsplit hfree⟩
      · rw [htext, hsplit, List.append_assoc, List.append_assoc]
      · rwa [List.length_append, List.length_append, ← Nat.add_assoc, ← Nat.add_assoc]

end Window

/-! ## Main result -/

/-- **An error stands at the first bad lexeme of a source**: it covers a part of the normalized
    text, and what is in front of it is tokenized by itself, to the tokens that come before the
    error. -/
theorem tokenize_before_error {source : String} {e : LexError} (h : tokenize source = .error e) :
    let text := Newline.normalizeChars source.toList
    e.span.start < e.span.stop ∧ e.span.stop ≤ text.length ∧
      ∃ before : List Token,
        (readingsOf source).map Reading.answer = before.map .ok ++ [.error e] ∧
          tokenize (String.ofList (text.take e.span.start)) = .ok (before ++ [.endOfFile]) := by
  intro text
  obtain ⟨before, hanswers, -, -⟩ := tiles_of_tokenize_error h
  have hwindow : (Window.ofText text).answers = before.map .ok ++ [.error e] := hanswers
  have hwithin : e.span.Within 0 text.length := by
    have hplaced := Window.answers_within (Window.ofText text) (.error e) (by simp [hwindow])
    rwa [PlacedWithin, Window.stop, Window.position_ofText, Window.text_ofText,
      Nat.zero_add] at hplaced
  refine ⟨hwithin.start_lt, hwithin.stop_le, before, hanswers, ?_⟩
  obtain ⟨kept, behind, hsplit, -, hstart, hreads⟩ := Window.exists_readsAs hwindow
  rw [Window.text_ofText] at hsplit
  rw [Window.position_ofText] at hstart hreads
  have hkept : text.take e.span.start = kept := by
    have hlength : e.span.start = kept.length := hstart.trans (Nat.zero_add _)
    rw [hlength, hsplit, List.take_left]
  have hnormal : Newline.normalizeChars kept = kept := by
    simpa using hreads.normalizeChars_append []
  rw [hkept, tokenize_eq_ok_iff, String.toList_ofList, hnormal]
  exact hreads.answers_eq _ (Window.text_ofText kept) (Window.position_ofText kept)

/-- The point is part of the number, with the string behind it and without. -/
theorem tokenize_before_error_string :
    let before : List Token := [⟨.name "a", ⟨0, 1⟩⟩, ⟨.symbol .assign, ⟨1, 2⟩⟩,
      ⟨.number (Binary64.ofNat 1), ⟨2, 4⟩⟩]
    tokenize "a=1.'x" = .error ⟨.unterminatedString, ⟨4, 6⟩⟩ ∧
      tokenize "a=1." = .ok (before ++ [.endOfFile]) := by
  intro before
  have herror : tokenize "a=1.'x" = .error ⟨.unterminatedString, ⟨4, 6⟩⟩ := by decide +kernel
  have hanswers : (readingsOf "a=1.'x").map Reading.answer
      = before.map .ok ++ [.error ⟨.unterminatedString, ⟨4, 6⟩⟩] := by decide +kernel
  obtain ⟨-, -, tokens, htokens, hcut⟩ := tokenize_before_error herror
  obtain rfl : tokens = before :=
    (List.map_inj_right fun _ _ => Except.ok.inj).mp
      (List.append_cancel_right (htokens.symm.trans hanswers))
  exact ⟨herror, hcut⟩

-- In front of a name a cut may take a point from where it was.
example : tokenize "1.a" = .ok [⟨.number (Binary64.ofNat 1), ⟨0, 1⟩⟩, ⟨.symbol .dot, ⟨1, 2⟩⟩,
      ⟨.name "a", ⟨2, 3⟩⟩, .endOfFile] ∧
    tokenize "1." = .ok [⟨.number (Binary64.ofNat 1), ⟨0, 2⟩⟩, .endOfFile] := by
  decide +kernel

end FormulaSyntax
