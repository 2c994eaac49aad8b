import FormulaSyntax.Proofs.Scanning.Passing
import FormulaSyntax.Proofs.Scanning.Positional

/-!
# Words

`Spells word l` says which texts spell a lexeme, with no reference to the scanner: the spelling of
a symbol, a name or a truth value by its characters, a number by a numeral in positional form, a
string by its body between two quotes. A string has many bodies, because most characters can be
escaped or not.

A word alone does not decide what is read. `=` in front of `=` is half of another symbol, a name
goes on with every character of a name, a number with a point. **`EndsBefore` is the condition on
what follows**, and `lexeme_of_spells` is the result: where a word stands in the text and ends
before the rest, its lexeme is read and just the word has passed.
-/

set_option autoImplicit false

namespace FormulaSyntax

/-! ## Which words spell a lexeme -/

/-- The body of a string in source, and what it means: characters that stand for themselves, and
    pairs of a backslash and any character. -/
inductive Body (quote : Char) : List Char → List Char → Prop
  | nil : Body quote [] []
  | plain {c : Char} {body content : List Char} :
      c ≠ quote → c ≠ '\\' → c ≠ '\n' → Body quote body content →
        Body quote (c :: body) (c :: content)
  | pair (letter : Char) {body content : List Char} :
      Body quote body content →
        Body quote ('\\' :: letter :: body) (Escape.meaning letter ++ content)

/-- Which texts spell a lexeme. A name that is one of the two truth values spells that value. -/
inductive Spells : List Char → Lexeme → Prop
  | symbol {s : Symbol} : s ≠ .endOfFile → Spells s.spelling.toList (.symbol s)
  | name {c : Char} {others : List Char} :
      isNameStart c = true → (∀ d ∈ others, isNamePart d = true) →
        Spells (c :: others) (.ofName (String.ofList (c :: others)))
  | number {n : DecimalNumeral} :
      n.Positional → n.value.isFinite = true → Spells n.chars (.number n.value)
  | string {quote : Char} {body content : List Char} :
      quote = '"' ∨ quote = '\'' → Body quote body content →
        Spells (quote :: (body ++ [quote])) (.string (String.ofList content))

/-- The symbols that are another one together with an equals sign. -/
def Symbol.joinsEquals : Symbol → Bool
  | .assign | .bang | .less | .greater => true
  | _ => false

/-- Whether a lexeme ends in front of a character. -/
def Lexeme.endsAt : Lexeme → Char → Bool
  | .symbol s, c => !(s.joinsEquals && c == '=')
  | .name _, c | .truth _, c => !isNamePart c
  | .number _, c => !isNamePart c && c != '.'
  | .string _, _ => true

/-- The rest of a text begins with nothing that would belong to the lexeme in front of it. -/
def Lexeme.EndsBefore (l : Lexeme) (rest : List Char) : Prop :=
  ∀ c ∈ rest.head?, l.endsAt c = true

/-! ## Bodies of strings -/

theorem Body.append {quote : Char} {first second content more : List Char}
    (h : Body quote first content) (h' : Body quote second more) :
    Body quote (first ++ second) (content ++ more) := by
  induction h with
  | nil => exact h'
  | plain hquote hslash hbreak _ ih => exact .plain hquote hslash hbreak ih
  | pair letter _ ih =>
    rw [List.append_assoc]
    exact .pair letter ih

theorem body_pair {quote letter c : Char} (h : Escape.decode? letter = some c) :
    Body quote ['\\', letter] [c] := by
  have hpair : Body quote ['\\', letter] (Escape.meaning letter ++ []) := .pair letter .nil
  rwa [Escape.meaning, h] at hpair

/-- Characters that need no escape stand for themselves. -/
theorem body_self {quote : Char} {text : List Char}
    (h : ∀ c ∈ text, c ≠ quote ∧ c ≠ '\\' ∧ c ≠ '\n') : Body quote text text := by
  induction text with
  | nil => exact .nil
  | cons c text ih =>
    obtain ⟨hquote, hslash, hbreak⟩ := h c List.mem_cons_self
    exact .plain hquote hslash hbreak (ih fun d hd => h d (List.mem_cons_of_mem _ hd))

/-- A body may be written character by character, as long as each is the body of something. -/
theorem body_flatMap {quote : Char} {write read : Char → List Char}
    (h : ∀ c, Body quote (write c) (read c)) (text : List Char) :
    Body quote (text.flatMap write) (text.flatMap read) := by
  induction text with
  | nil => exact .nil
  | cons c text ih => exact (h c).append ih

/-! ## Classes of characters -/

theorem isNameStart_iff {c : Char} :
    isNameStart c = true ↔ ('A' ≤ c ∧ c ≤ 'Z') ∨ ('a' ≤ c ∧ c ≤ 'z') ∨ c = '_' := by
  have halpha : c.isAlpha = (decide ('A' ≤ c ∧ c ≤ 'Z') || (decide ('a' ≤ c) && decide (c ≤ 'z'))) :=
    rfl
  simp [isNameStart, halpha, or_assoc]

theorem isNamePart_iff {c : Char} :
    isNamePart c = true ↔ isNameStart c = true ∨ c.isDigit = true := by
  simp [isNameStart, isNamePart, Char.isAlphanum, or_right_comm]

theorem isNameStart_of_not_isNamePart {c : Char} (h : isNamePart c = false) :
    isNameStart c = false := by
  rw [Bool.eq_false_iff]
  intro hs
  rw [isNamePart_iff.mpr (.inl hs)] at h
  exact nomatch h

theorem isDigit_of_not_isNamePart {c : Char} (h : isNamePart c = false) : c.isDigit = false := by
  rw [Bool.eq_false_iff]
  intro hd
  rw [isNamePart_iff.mpr (.inr hd)] at h
  exact nomatch h

theorem isNameStart_of_isDigit {c : Char} (h : c.isDigit = true) : isNameStart c = false := by
  have hrange := Char.isDigit_iff_toNat.mp h
  rw [Bool.eq_false_iff]
  intro hs
  rcases isNameStart_iff.mp hs with hs | hs | rfl
  · have hle : 'A'.toNat ≤ c.toNat := hs.1
    exact absurd (Nat.le_trans hle hrange.2) (by decide)
  · have hle : 'a'.toNat ≤ c.toNat := hs.1
    exact absurd (Nat.le_trans hle hrange.2) (by decide)
  · exact absurd h (by decide)

theorem isBlank_of_isNamePart {c : Char} (h : isNamePart c = true) : isBlank c = false := by
  rw [Bool.eq_false_iff]
  intro hb
  simp only [isBlank, Bool.or_eq_true, beq_iff_eq] at hb
  rcases hb with rfl | rfl
  · exact absurd h (by decide)
  · exact absurd h (by decide)

/-- The characters of a name belong to a name, the first one as well. -/
theorem isNamePart_of_mem_cons {c : Char} {others : List Char} (hstart : isNameStart c = true)
    (hothers : ∀ d ∈ others, isNamePart d = true) : ∀ d ∈ c :: others, isNamePart d = true := by
  intro d hd
  rcases List.mem_cons.mp hd with rfl | hd
  · exact isNamePart_iff.mpr (.inl hstart)
  · exact hothers d hd

/-- Names and truth values end alike. -/
theorem Lexeme.endsAt_ofName (text : String) (c : Char) :
    (Lexeme.ofName text).endsAt c = !isNamePart c := by
  unfold Lexeme.ofName
  split
  · rfl
  · split <;> rfl

/-- Most characters belong to no lexeme in front of them. -/
theorem Lexeme.endsAt_of {c : Char} (hpart : isNamePart c = false) (hequals : c ≠ '=')
    (hpoint : c ≠ '.') (l : Lexeme) : l.endsAt c = true := by
  cases l <;> simp [endsAt, hpart, hequals, hpoint]

theorem Lexeme.endsAt_space (l : Lexeme) : l.endsAt ' ' = true :=
  l.endsAt_of (by decide) (by decide) (by decide)

theorem Lexeme.endsAt_lineFeed (l : Lexeme) : l.endsAt '\n' = true :=
  l.endsAt_of (by decide) (by decide) (by decide)

/-- The marks of the radixes are letters. -/
theorem ofMark?_eq_none {c : Char} (h : isNameStart c = false) : Radix.ofMark? c = none := by
  have hne : ∀ d, isNameStart d = true → c ≠ d := by
    intro d hd heq
    rw [heq, hd] at h
    exact nomatch h
  simp [Radix.ofMark?, hne 'x' rfl, hne 'X' rfl, hne 'o' rfl, hne 'O' rfl, hne 'b' rfl, hne 'B' rfl]

theorem isNamePart_of_isExponentMark {c : Char} (h : isExponentMark c = true) :
    isNamePart c = true := by
  simp only [isExponentMark, Bool.or_eq_true, beq_iff_eq] at h
  rcases h with rfl | rfl
  · decide
  · decide

namespace Window

variable {w : Window} {c : Char} {word rest : List Char}

/-! ## Names -/

theorem nameLexeme_of_text (h : w.text = word ++ rest) (hword : ∀ c ∈ word, isNamePart c = true)
    (hrest : ∀ c ∈ rest.head?, isNamePart c = false) :
    w.nameLexeme = (.ok (.ofName (String.ofList word)), w.pass word.length) := by
  have hrun : w.run nameParts = (word, w.pass word.length) := by
    apply run_keep h
    · intro c hc d
      simp [nameParts, hword c hc]
    · intro c hc d
      simp [nameParts, hrest c hc]
  simp only [nameLexeme, hrun]

/-! ## Numbers -/

theorem run_decimalDigits (h : w.text = word ++ rest) (hword : ∀ c ∈ word, c.isDigit = true)
    (hrest : ∀ c ∈ rest.head?, c.isDigit = false ∧ c ≠ '_') :
    w.run decimalDigits = (word, w.pass word.length) := by
  apply run_keep h
  · intro c hc d
    simp [decimalDigits, hword c hc]
  · intro c hc d
    simp [decimalDigits, hrest c hc]

theorem exponent?_eq_none (start : Nat) (h : ∀ c ∈ w.text.head?, isNamePart c = false) :
    exponent? start w = (.ok none, w) := by
  unfold exponent?
  split
  · next c hc =>
    rw [current?_eq_head?] at hc
    by_cases hmark : isExponentMark c = true
    · exact absurd (isNamePart_of_isExponentMark hmark) (by simp [h c hc])
    · rw [if_neg hmark]
  · rfl

theorem atFraction_of_text (h : w.text = '.' :: rest)
    (hrest : ∀ c ∈ rest.head?, isNameStart c = false) : w.atFraction = true := by
  rw [atFraction, current?_of_text h, following?_of_text h]
  cases hr : rest.head? with
  | none => simp
  | some c => simp [hrest c hr]

/-- Without a point there is no fraction. -/
theorem atFraction_eq_false (h : ∀ c ∈ w.text.head?, c ≠ '.') : w.atFraction = false := by
  rw [atFraction, current?_eq_head?]
  cases ht : w.text.head? with
  | none => simp
  | some c => simp [h c ht]

/-- The character behind the first one of a numeral marks no radix. -/
theorem radix?_eq_none {n : DecimalNumeral} (hn : n.Positional) (h : w.text = n.chars ++ rest)
    (hrest : ∀ c ∈ rest.head?, isNamePart c = false) : w.radix? = none := by
  have hchars : ∀ d ∈ n.chars, isNameStart d = false := by
    intro d hd
    rcases hn.mem_chars hd with hd | rfl
    · exact isNameStart_of_isDigit hd
    · decide
  obtain ⟨c, others, hcons, -⟩ := hn.exists_chars_eq_cons
  have hfollowing : ∀ d ∈ w.following?, isNameStart d = false := by
    intro d hd
    rw [hcons, List.cons_append] at h
    rw [following?_of_text h] at hd
    cases others with
    | nil => exact isNameStart_of_not_isNamePart (hrest d hd)
    | cons e others =>
      obtain rfl : e = d := Option.some.inj hd
      exact hchars e (by rw [hcons]; simp)
  unfold radix?
  split
  · cases hd : w.following? with
    | none => rfl
    | some d => exact ofMark?_eq_none (hfollowing d hd)
  · rfl

theorem decimalNumeral_of_text {n : DecimalNumeral} (hn : n.Positional) (start : Nat)
    (h : w.text = n.chars ++ rest)
    (hrest : ∀ c ∈ rest.head?, isNamePart c = false ∧ c ≠ '.') :
    decimalNumeral start w = (.ok n, w.pass n.chars.length) := by
  obtain ⟨whole, fraction, exponent⟩ := n
  obtain ⟨-, hwhole, hplaces, rfl⟩ := hn
  have hpart : ∀ c ∈ rest.head?, isNamePart c = false := fun c hc => (hrest c hc).1
  have hdigit : ∀ c ∈ rest.head?, c.isDigit = false ∧ c ≠ '_' := by
    intro c hc
    refine ⟨isDigit_of_not_isNamePart (hpart c hc), ?_⟩
    rintro rfl
    exact absurd (hpart '_' hc) (by decide)
  cases fraction with
  | none =>
    have ht : w.text = whole ++ rest := by simpa [DecimalNumeral.chars] using h
    have hpassed := text_pass_of_text ht
    have hpoint : (w.pass whole.length).atFraction = false := by
      apply atFraction_eq_false
      rw [hpassed]
      exact fun c hc => (hrest c hc).2
    have hexponent := exponent?_eq_none start (w := w.pass whole.length) (hpassed ▸ hpart)
    simp [decimalNumeral, run_decimalDigits ht hwhole hdigit, hpoint, hexponent,
      DecimalNumeral.chars, Except.map]
  | some places =>
    have ht : w.text = whole ++ '.' :: (places ++ rest) := by
      simpa [DecimalNumeral.chars] using h
    have hrun : w.run decimalDigits = (whole, w.pass whole.length) := by
      apply run_decimalDigits ht hwhole
      intro c hc
      obtain rfl : '.' = c := Option.some.inj hc
      exact ⟨by decide, by decide⟩
    have hpassed := text_pass_of_text ht
    have hpoint : (w.pass whole.length).atFraction = true := by
      apply atFraction_of_text hpassed
      intro c hc
      cases places with
      | nil => exact isNameStart_of_not_isNamePart (hpart c hc)
      | cons d places =>
        obtain rfl : d = c := Option.some.inj hc
        exact isNameStart_of_isDigit (hplaces d (by simp))
    have hplacesText := text_advance_of_text hpassed
    have hrunPlaces := run_decimalDigits hplacesText hplaces hdigit
    have hbehind := text_pass_of_text hplacesText
    have hexponent := exponent?_eq_none start (hbehind ▸ hpart)
    have hlength : (w.pass whole.length).advance.pass places.length
        = w.pass (whole.length + (places.length + 1)) := by
      rw [advance_pass, pass_pass]
      congr 1
      omega
    rw [hlength] at hexponent
    -- No exponent follows in either case, but the scanner only looks for one behind digits.
    by_cases hempty : places.isEmpty = true
    · simp [decimalNumeral, hrun, hpoint, hrunPlaces, hempty, hlength, DecimalNumeral.chars]
    · simp [decimalNumeral, hrun, hpoint, hrunPlaces, hempty, hlength, hexponent,
        DecimalNumeral.chars, Except.map]

theorem number_of_text {n : DecimalNumeral} (hn : n.Positional) (hfinite : n.value.isFinite = true)
    (h : w.text = n.chars ++ rest)
    (hrest : ∀ c ∈ rest.head?, isNamePart c = false ∧ c ≠ '.') :
    w.number = (.ok n.value, w.pass n.chars.length) := by
  have hradix := radix?_eq_none hn h fun c hc => (hrest c hc).1
  have hnumeral := decimalNumeral_of_text hn w.position h hrest
  have hseparator : (w.pass n.chars.length).current? ≠ some '_' := by
    rw [current?_eq_head?, text_pass_of_text h]
    intro hc
    exact absurd (hrest '_' hc).1 (by decide)
  simp [number, unguardedNumber, hradix, decimalNumber, hnumeral, hfinite, hseparator]

/-! ## Strings -/

/-- The induction is on the body; what was read before it is generalised. -/
theorem quotationBody_of_body {quote : Char} (hquote : quote ≠ '\\') {body content : List Char}
    (hbody : Body quote body content) (h : w.text = body ++ quote :: rest) (before : List Char) :
    quotationBody quote w before
      = (some (before.reverse ++ content), w.pass (body.length + 1)) := by
  induction hbody generalizing w before with
  | nil =>
    rw [quotationBody]
    split
    · next hc => simp [current?_of_text h] at hc
    · next c hc =>
      obtain rfl : quote = c := Option.some.inj ((current?_of_text h).symm.trans hc)
      simp
  | @plain c body content hne hslash hbreak _ ih =>
    have hadvance := text_advance_of_text h
    rw [quotationBody]
    split
    · next hc => simp [current?_of_text h] at hc
    · next d hc =>
      obtain rfl : c = d := Option.some.inj ((current?_of_text h).symm.trans hc)
      rw [if_neg hne, if_neg hslash, if_neg hbreak, ih hadvance]
      simp [pass_succ]
  | @pair letter body content _ ih =>
    have hadvance := text_advance_of_text h
    have hbehind := text_advance_of_text hadvance
    rw [quotationBody]
    split
    · next hc => simp [current?_of_text h] at hc
    · next d hc =>
      obtain rfl : '\\' = d := Option.some.inj ((current?_of_text h).symm.trans hc)
      rw [if_neg hquote.symm, if_pos rfl]
      split
      · next hl => simp [current?_of_text hadvance] at hl
      · next d hl =>
        obtain rfl : letter = d :=
          Option.some.inj ((current?_of_text hadvance).symm.trans hl)
        rw [ih hbehind]
        simp [pass_succ]

/-- The converse: what was read is a body, with its closing quote behind it. -/
theorem exists_body_of_quotationBody {quote : Char} {before result : List Char}
    (h : (quotationBody quote w before).1 = some result) :
    ∃ body content, Body quote body content ∧ result = before.reverse ++ content ∧
      w.text = body ++ quote :: (quotationBody quote w before).2.text := by
  fun_induction quotationBody quote w before with
  | case1 | case3 | case5 => simp at h
  | case2 w before hc =>
    refine ⟨[], [], .nil, ?_, text_of_current? hc⟩
    rw [List.append_nil]
    exact (Option.some.inj h).symm
  | case4 w before letter hl hc _ ih =>
    obtain ⟨body, content, hbody, hresult, htext⟩ := ih h
    refine ⟨'\\' :: letter :: body, _, hbody.pair letter, ?_, ?_⟩
    · rw [hresult, List.reverse_append, List.reverse_reverse, List.append_assoc]
    · rw [text_of_current? hc, text_of_current? hl, htext]
      rfl
  | case6 w before c hc hquote hslash hbreak ih =>
    obtain ⟨body, content, hbody, hresult, htext⟩ := ih h
    refine ⟨c :: body, c :: content, hbody.plain hquote hslash hbreak, ?_, ?_⟩
    · rw [hresult, List.reverse_cons, List.append_assoc, List.singleton_append]
    · rw [text_of_current? hc, htext]
      rfl

theorem quotation_of_text {quote : Char} (hquote : quote ≠ '\\') {body content : List Char}
    (hbody : Body quote body content) (h : w.text = quote :: (body ++ [quote]) ++ rest) :
    quotation quote w
      = (.ok (String.ofList content), w.pass (quote :: (body ++ [quote])).length) := by
  have hadvance : w.advance.text = body ++ quote :: rest := by
    rw [text_advance, h]
    simp
  have hread := quotationBody_of_body hquote hbody hadvance []
  simp [quotation, hread, pass_succ]

theorem exists_body_of_quotation {quote : Char} {text : String} {others : List Char}
    (h : w.text = quote :: others) (hread : (quotation quote w).1 = .ok text) :
    ∃ body content behind, Body quote body content ∧ text = String.ofList content ∧
      w.text = quote :: (body ++ [quote]) ++ behind := by
  unfold quotation at hread
  split at hread
  · next content v hscan =>
    obtain rfl := Except.ok.inj hread
    obtain ⟨body, content, hbody, rfl, htext⟩ :=
      exists_body_of_quotationBody (congrArg Prod.fst hscan)
    rw [text_advance_of_text h, hscan] at htext
    refine ⟨body, content, v.text, hbody, rfl, ?_⟩
    rw [h, htext, List.cons_append, List.append_assoc]
    rfl
  · exact nomatch hread

end Window

/-! ## Symbols -/

/-- A symbol is one character, or one and an equals sign. -/
theorem Symbol.spelling_cases {s : Symbol} (h : s ≠ .endOfFile) :
    (∃ c, s.spelling.toList = [c] ∧ ofChar? c = some s ∧
        (s.joinsEquals = false → withEquals? c = none)) ∨
      ∃ c, s.spelling.toList = [c, '='] ∧ withEquals? c = some s := by
  cases s with
  | endOfFile => exact absurd rfl h
  | equal | notEqual | greaterEqual | lessEqual => exact .inr ⟨_, rfl, rfl⟩
  | assign | bang | less | greater => exact .inl ⟨_, rfl, rfl, nofun⟩
  | _ => exact .inl ⟨_, rfl, rfl, fun _ => rfl⟩

/-- A character begins a symbol and no other lexeme, and is no blank. -/
def BeginsSymbol (c : Char) : Prop :=
  isNameStart c = false ∧ c.isDigit = false ∧ ¬ (c = '"' ∨ c = '\'') ∧ isBlank c = false

instance (c : Char) : Decidable (BeginsSymbol c) := by
  unfold BeginsSymbol
  infer_instance

theorem beginsSymbol_of_ofChar? {c : Char} {s : Symbol} (h : Symbol.ofChar? c = some s) :
    BeginsSymbol c := by
  unfold Symbol.ofChar? at h
  split at h
  case h_18 => exact nomatch h
  all_goals decide

theorem beginsSymbol_of_withEquals? {c : Char} {s : Symbol} (h : Symbol.withEquals? c = some s) :
    BeginsSymbol c := by
  unfold Symbol.withEquals? at h
  split at h
  case h_5 => exact nomatch h
  all_goals decide

namespace Window

variable {w : Window} {c : Char} {word rest : List Char}

theorem symbolLexeme_of_text {s : Symbol} (hs : s ≠ .endOfFile)
    (h : w.text = s.spelling.toList ++ rest) (hends : (Lexeme.symbol s).EndsBefore rest) :
    ∃ c others, s.spelling.toList = c :: others ∧ BeginsSymbol c ∧
      symbolLexeme c w = (.ok (.symbol s), w.pass s.spelling.toList.length) := by
  rcases Symbol.spelling_cases hs with ⟨c, hspelling, hchar, hjoins⟩ | ⟨c, hspelling, hequals⟩
  · refine ⟨c, [], hspelling, beginsSymbol_of_ofChar? hchar, ?_⟩
    rw [hspelling, List.singleton_append] at h
    have hnone : (if w.following? = some '=' then Symbol.withEquals? c else none) = none := by
      split
      · next hfollowing =>
        rw [following?_of_text h] at hfollowing
        have hend := hends '=' hfollowing
        apply hjoins
        simpa [Lexeme.endsAt] using hend
      · rfl
    simp [symbolLexeme, hnone, hchar, hspelling]
  · refine ⟨c, ['='], hspelling, beginsSymbol_of_withEquals? hequals, ?_⟩
    rw [hspelling, List.cons_append] at h
    have hfollowing : w.following? = some '=' := by
      rw [following?_of_text h]
      rfl
    simp [symbolLexeme, hfollowing, hequals, hspelling, pass_succ]

/-! ## Words in front of a window -/

theorem ne_slash_of_quote (h : c = '"' ∨ c = '\'') : c ≠ '\\' := by
  rcases h with rfl | rfl
  · decide
  · decide

/-- A quote begins a string and no other lexeme. -/
theorem lexeme_of_quote (h : c = '"' ∨ c = '\'') :
    lexeme c w = ((quotation c w).1.map .string, (quotation c w).2) := by
  have hclasses : isNameStart c = false ∧ c.isDigit = false := by
    rcases h with rfl | rfl
    · decide
    · decide
  simp only [lexeme, hclasses.1, hclasses.2, if_pos h, Bool.false_eq_true, if_false]

/-- What a string was read from is a body between two quotes. -/
theorem exists_body_of_lexeme {l : Lexeme} {others : List Char} (hc : c = '"' ∨ c = '\'')
    (h : w.text = c :: others) (hl : (lexeme c w).1 = .ok l) :
    ∃ body content behind, Body c body content ∧ l = .string (String.ofList content) ∧
      w.text = c :: (body ++ [c]) ++ behind ∧
      (lexeme c w).2 = w.pass (c :: (body ++ [c])).length := by
  rw [lexeme_of_quote hc] at hl ⊢
  cases hread : (quotation c w).1 with
  | error e =>
    rw [hread] at hl
    exact nomatch hl
  | ok text =>
    rw [hread] at hl
    obtain rfl : .string text = l := Except.ok.inj hl
    obtain ⟨body, content, behind, hbody, rfl, hsplit⟩ := exists_body_of_quotation h hread
    refine ⟨body, content, behind, hbody, rfl, hsplit, ?_⟩
    rw [quotation_of_text (ne_slash_of_quote hc) hbody hsplit]

/-- **A word that ends before the rest of the text is read as its lexeme**, and just the word
    passes. -/
theorem lexeme_of_spells {l : Lexeme} (hword : Spells word l) (h : w.text = word ++ rest)
    (hends : l.EndsBefore rest) :
    ∃ c others, word = c :: others ∧ isBlank c = false ∧
      lexeme c w = (.ok l, w.pass word.length) := by
  -- The scanner decides by the first character, so every case says of which class it is.
  cases hword with
  | symbol hs =>
    obtain ⟨c, others, hcons, ⟨hname, hdigit, hquote, hblank⟩, hread⟩ :=
      symbolLexeme_of_text hs h hends
    refine ⟨c, others, hcons, hblank, ?_⟩
    simp [lexeme, hname, hdigit, hquote, hread]
  | @name c others hstart hothers =>
    have hparts := isNamePart_of_mem_cons hstart hothers
    have hrest : ∀ d ∈ rest.head?, isNamePart d = false := by
      intro d hd
      have hend := hends d hd
      rw [Lexeme.endsAt_ofName] at hend
      simpa using hend
    refine ⟨c, others, rfl, isBlank_of_isNamePart (hparts c List.mem_cons_self), ?_⟩
    rw [lexeme, if_pos hstart, nameLexeme_of_text h hparts hrest]
  | @number n hn hfinite =>
    obtain ⟨c, others, hcons, hdigit⟩ := hn.exists_chars_eq_cons
    have hread := number_of_text hn hfinite h
      (by simpa [Lexeme.EndsBefore, Lexeme.endsAt] using hends)
    refine ⟨c, others, hcons, isBlank_of_isNamePart (isNamePart_iff.mpr (.inr hdigit)), ?_⟩
    simp [lexeme, isNameStart_of_isDigit hdigit, hdigit, hread, Except.map]
  | @string quote body content hquote hbody =>
    have hblank : isBlank quote = false := by
      rcases hquote with rfl | rfl
      · decide
      · decide
    refine ⟨quote, body ++ [quote], rfl, hblank, ?_⟩
    rw [lexeme_of_quote hquote, quotation_of_text (ne_slash_of_quote hquote) hbody h]
    rfl

end Window

end FormulaSyntax
