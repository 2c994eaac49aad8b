import FormulaSyntax.Proofs.Scanning.Spellings

/-!
# What can be read

Not every lexeme comes out of a text. Tokens also arrive from elsewhere, with names that are no
names, negative numbers or end markers in the middle; `Lexeme.Lexable` are those that a source can
spell. The definition does not mention the tokenizer. Its two halves are

* `answers_lexable`: every token of every stream of answers is lexable, up to the end marker or
  the error that ends the stream, and
* `spells_render`: the rendered text of a lexable lexeme spells it.

The second is where the escapes of rendered strings meet those of the scanner, and where numbers
are written and read.
-/

set_option autoImplicit false

namespace FormulaSyntax

/-- A letter of the basic alphabet, or `_`. -/
def IsLetter (c : Char) : Prop := ('A' ≤ c ∧ c ≤ 'Z') ∨ ('a' ≤ c ∧ c ≤ 'z') ∨ c = '_'

/-- A name: a letter with letters and digits behind it, and none of the two truth values. -/
structure IsIdentifier (text : String) : Prop where
  letters : ∃ c others, text.toList = c :: others ∧ IsLetter c ∧
    ∀ d ∈ others, IsLetter d ∨ ('0' ≤ d ∧ d ≤ '9')
  ne_true : text ≠ "true"
  ne_false : text ≠ "false"

/-- A lexeme that a source can spell. -/
def Lexeme.Lexable : Lexeme → Prop
  | .symbol s => s ≠ .endOfFile
  | .name text => IsIdentifier text
  | .number x => ∃ index, x = .finite false index
  | .string _ | .truth _ => True

theorem isNamePart_iff_isLetter {c : Char} :
    isNamePart c = true ↔ IsLetter c ∨ ('0' ≤ c ∧ c ≤ '9') := by
  rw [isNamePart_iff, isNameStart_iff, IsLetter, Char.isDigit_iff_toNat]
  rfl

theorem Lexeme.Lexable.ne_endOfFile {l : Lexeme} (h : l.Lexable) : l ≠ .symbol .endOfFile := by
  rintro rfl
  exact h rfl

/-! ## What is read is lexable -/

theorem lexable_ofName {c : Char} {others : List Char} (hc : isNameStart c = true)
    (hothers : ∀ d ∈ others, isNamePart d = true) :
    (Lexeme.ofName (String.ofList (c :: others))).Lexable := by
  unfold Lexeme.ofName
  split
  · trivial
  · next htrue =>
    split
    · trivial
    · next hfalse =>
      refine ⟨⟨c, others, String.toList_ofList, isNameStart_iff.mp hc, ?_⟩, htrue, hfalse⟩
      intro d hd
      exact isNamePart_iff_isLetter.mp (hothers d hd)

namespace Binary64

/-- A decimal has no sign, so what it is rounded to is not negative. -/
theorem ofDecimal_cases (d : Decimal) :
    ofDecimal false d = .infinite false ∨ ∃ index, ofDecimal false d = atIndex false index := by
  unfold ofDecimal
  split
  · exact .inr ⟨0, rfl⟩
  · split
    · exact .inl rfl
    · split
      · exact .inr ⟨0, rfl⟩
      · split
        · exact .inr ⟨_, rfl⟩
        · exact .inr ⟨_, rfl⟩

theorem exists_finite_of_ofDecimal {d : Decimal} (h : (ofDecimal false d).isFinite = true) :
    ∃ index, ofDecimal false d = .finite false index := by
  rcases ofDecimal_cases d with hd | ⟨index, hd⟩
  · rw [hd] at h
    exact nomatch h
  · rw [hd, isFinite_atIndex, decide_eq_true_iff] at h
    exact ⟨⟨index, h⟩, by rw [hd, atIndex_of_lt false h]⟩

theorem exists_finite_of_ofWord (word : UInt64) : ∃ index, ofWord word = .finite false index := by
  rw [ofWord_eq_ofNat]
  exact exists_finite_of_ofDecimal (isFinite_ofNat word.toNat_lt)

theorem exists_finite_of_parse? {text : List Char} {x : Binary64} (h : parse? text = some x)
    (hfinite : x.isFinite = true) : ∃ index, x = .finite false index := by
  obtain ⟨n, -, rfl⟩ := Option.map_eq_some_iff.mp h
  exact exists_finite_of_ofDecimal hfinite

end Binary64

/-- Numerals have no sign, so none is worth a negative number, by whichever route it goes. -/
theorem DecimalNumeral.exists_finite_of_value {n : DecimalNumeral} (h : n.value.isFinite = true) :
    ∃ index, n.value = .finite false index := by
  rw [value] at h ⊢
  cases hparsed : n.parsed? with
  | none =>
    rw [hparsed] at h
    cases h
  | some x =>
    rw [hparsed, Option.getD_some] at h
    rw [Option.getD_some]
    rw [parsed?] at hparsed
    split at hparsed
    · exact Binary64.exists_finite_of_parse? hparsed h
    · split at hparsed
      · next word _ =>
        obtain rfl := Option.some.inj hparsed
        exact Binary64.exists_finite_of_ofWord word
      · exact Binary64.exists_finite_of_parse? hparsed h

namespace Window

variable {w : Window} {c : Char}

theorem radixNumber_lexable {r : Radix} {start : Nat} {x : Binary64}
    (h : (radixNumber r start w).1 = .ok x) : ∃ index, x = .finite false index := by
  simp only [radixNumber] at h
  split at h
  · cases h
  · split at h
    · next word _ =>
      obtain rfl := Except.ok.inj h
      exact Binary64.exists_finite_of_ofWord word
    · cases h

theorem decimalNumber_lexable {start : Nat} {x : Binary64} (h : (decimalNumber start w).1 = .ok x) :
    ∃ index, x = .finite false index := by
  unfold decimalNumber at h
  split at h
  · exact nomatch h
  · split at h
    · next hfinite =>
      obtain rfl := Except.ok.inj h
      exact DecimalNumeral.exists_finite_of_value hfinite
    · exact nomatch h

/-- A number that is scanned is finite and not negative, of either kind. -/
theorem number_lexable {x : Binary64} (h : w.number.1 = .ok x) :
    ∃ index, x = .finite false index := by
  have hunguarded : ∀ {y}, (unguardedNumber w).1 = .ok y → ∃ index, y = .finite false index := by
    intro y hy
    unfold unguardedNumber at hy
    split at hy
    · exact radixNumber_lexable hy
    · exact decimalNumber_lexable hy
  unfold number at h
  split at h
  · exact nomatch h
  · next y rest hy =>
    split at h
    · exact nomatch h
    · obtain rfl := Except.ok.inj h
      exact hunguarded (by rw [hy])

theorem symbolLexeme_lexable {l : Lexeme} (h : (symbolLexeme c w).1 = .ok l) : l.Lexable := by
  have hequals : ∀ s, Symbol.withEquals? c = some s → s ≠ .endOfFile := by
    rintro s hs rfl
    unfold Symbol.withEquals? at hs
    split at hs <;> exact nomatch hs
  have hchar : ∀ s, Symbol.ofChar? c = some s → s ≠ .endOfFile := by
    rintro s hs rfl
    unfold Symbol.ofChar? at hs
    split at hs <;> exact nomatch hs
  unfold symbolLexeme at h
  split at h
  · next s hs =>
    obtain rfl := Except.ok.inj h
    split at hs
    · exact hequals s hs
    · exact nomatch hs
  · split at h
    · next s hs =>
      obtain rfl := Except.ok.inj h
      exact hchar s hs
    · exact nomatch h

theorem lexeme_lexable {l : Lexeme} (hc : w.current? = some c) (h : (lexeme c w).1 = .ok l) :
    l.Lexable := by
  unfold lexeme at h
  split at h
  · next hstart =>
    have hkeep : ∀ d, nameParts c d = .keep := by
      intro d
      simp [nameParts, isNamePart_iff.mpr (.inl hstart)]
    obtain ⟨others, hrun⟩ := exists_run_eq_cons hc hkeep
    have hparts : ∀ d ∈ others, isNamePart d = true := by
      intro d hd
      have hmem : d ∈ (w.run nameParts).1 := by simp [hrun, hd]
      obtain ⟨e, he⟩ := mem_run hmem
      by_cases hpart : isNamePart d = true
      · exact hpart
      · simp [nameParts, hpart] at he
    obtain rfl : Lexeme.ofName (String.ofList (w.run nameParts).1) = l := Except.ok.inj h
    rw [hrun]
    exact lexable_ofName hstart hparts
  · split at h
    · cases hx : w.number.1 with
      | error e => simp [hx, Except.map] at h
      | ok x =>
        obtain rfl : Lexeme.number x = l := by simpa [hx, Except.map] using h
        exact number_lexable hx
    · split at h
      · cases hx : (w.quotation c).1 with
        | error e => simp [hx, Except.map] at h
        | ok text =>
          obtain rfl : Lexeme.string text = l := by simpa [hx, Except.map] using h
          trivial
      · exact symbolLexeme_lexable h

/-- A token that is scanned is the end marker, and then nothing more follows, or lexable. -/
theorem nextToken_lexable {t : Token} (h : w.nextToken.1 = .ok t) :
    t = .endOfFile ∨ t.lexeme.Lexable := by
  simp only [nextToken] at h
  split at h
  · exact .inl (Except.ok.inj h).symm
  · next c hc =>
    cases hl : (lexeme c (w.run blanks).2).1 with
    | error e => simp [hl, Except.map] at h
    | ok l =>
      simp only [hl, Except.map] at h
      obtain rfl := Except.ok.inj h
      exact .inr (lexeme_lexable hc hl)

/-- **A stream of answers consists of lexable tokens**, and then of the end marker or an error. -/
theorem answers_lexable (w : Window) :
    ∃ (tokens : List Token) (last : Except LexError Token),
      w.answers = tokens.map .ok ++ [last] ∧ (∀ t ∈ tokens, t.lexeme.Lexable) ∧
        (last = .ok .endOfFile ∨ ∃ e, last = .error e) := by
  rw [answers_eq]
  cases hanswer : w.nextToken.1 with
  | error e => exact ⟨[], .error e, rfl, by simp, .inr ⟨e, rfl⟩⟩
  | ok t =>
    rcases nextToken_lexable hanswer with rfl | hlexable
    · exact ⟨[], .ok .endOfFile, rfl, by simp, .inl rfl⟩
    · have hmore : Tokenizer.endsStream (.ok t) = false := by
        rw [Tokenizer.endsStream, Bool.eq_false_iff]
        intro hend
        exact hlexable.ne_endOfFile (Token.isEndOfFile_iff.mp hend)
      have hlt : w.nextToken.2.text.length < w.text.length := by
        apply length_text_nextToken_lt
        rw [hanswer]
        rintro heq
        obtain rfl := Except.ok.inj heq
        exact hlexable.ne_endOfFile rfl
      obtain ⟨tokens, last, hrest, htokens, hlast⟩ := answers_lexable w.nextToken.2
      refine ⟨t :: tokens, last, ?_, ?_, hlast⟩
      · rw [hmore, hrest]
        rfl
      · intro u hu
        rcases List.mem_cons.mp hu with rfl | hu
        · exact hlexable
        · exact htokens u hu
termination_by w.text.length

end Window

/-! ## What is lexable is spelled by its rendered text -/

theorem spells_of_isIdentifier {text : String} (h : IsIdentifier text) :
    Spells text.toList (.name text) := by
  obtain ⟨⟨c, others, htext, hc, hothers⟩, htrue, hfalse⟩ := h
  have hname : Lexeme.ofName (String.ofList (c :: others)) = .name text := by
    rw [← htext, String.ofList_toList, Lexeme.ofName, if_neg htrue, if_neg hfalse]
  rw [htext, ← hname]
  apply Spells.name (isNameStart_iff.mpr hc)
  intro d hd
  exact isNamePart_iff_isLetter.mpr (hothers d hd)

theorem spells_number (index : Fin Binary64.finiteCount) :
    Spells (Binary64.finite false index).plain.toList (.number (.finite false index)) := by
  obtain ⟨n, hn, hchars, hvalue⟩ := Binary64.exists_numeral index
  rw [← hchars, ← hvalue]
  exact .number hn (by rw [hvalue]; rfl)

/-- What would end a body or begin a pair has an escape, so what has none stands for itself. -/
theorem ne_of_encode?_eq_none {c : Char} (h : Escape.encode? c = none) :
    c ≠ '"' ∧ c ≠ '\\' ∧ c ≠ '\n' := by
  refine ⟨?_, ?_, ?_⟩
  all_goals
    rintro rfl
    exact nomatch h

theorem body_written (c : Char) : Body '"' (Escape.written c) [c] := by
  rw [Escape.written]
  cases h : Escape.encode? c with
  | none =>
    obtain ⟨hquote, hslash, hbreak⟩ := ne_of_encode?_eq_none h
    exact .plain hquote hslash hbreak .nil
  | some letter => exact body_pair (Escape.decode?_of_encode? h)

/-- **Escaping a text gives a body that means the text.** -/
theorem body_escaped (content : List Char) : Body '"' (content.flatMap Escape.written) content := by
  have hbody := body_flatMap body_written content
  rwa [List.flatMap_singleton'] at hbody

/-- **The rendered text of a lexable lexeme spells it.** -/
theorem spells_render {l : Lexeme} (h : l.Lexable) : Spells l.render.toList l := by
  cases l with
  | symbol s => exact .symbol h
  | name text => exact spells_of_isIdentifier h
  | number x =>
    obtain ⟨index, rfl⟩ := h
    exact spells_number index
  | string text =>
    have hstring := Spells.string (.inl rfl) (body_escaped text.toList)
    rw [String.ofList_toList] at hstring
    simpa [Lexeme.render, Lexeme.escaped] using hstring
  | truth value =>
    cases value with
    | true => exact .name (c := 't') (by decide) (List.all_eq_true.mp rfl)
    | false => exact .name (c := 'f') (by decide) (List.all_eq_true.mp rfl)

end FormulaSyntax
