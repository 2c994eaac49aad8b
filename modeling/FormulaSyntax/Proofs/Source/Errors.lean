import FormulaSyntax.Proofs.Parsing.Origins
import FormulaSyntax.Proofs.Scanning.Bounds
import FormulaSyntax.Proofs.Source.Lines

/-!
# The errors of a source

Two questions about a source in error are answered here.

**Where is the error?** In the text, however often the same parser has failed before
(`errors_located`). What is blamed is always something that the tokenizer gave, and that stands in
the text; the end marker, which stands nowhere, is never blamed.

**Which error is it?** The parser meets a lexical error up to two tokens early, and it may find one
of its own first. It reports the lexical error, which is the tokenizer's, unless the tokens in
front of it are in error by themselves and this can be told without asking for more
(`parse_agrees_with_tokenize`). So no source in which a text is no lexeme has a formula.
-/

set_option autoImplicit false

namespace FormulaSyntax

/-! ## Where the error is -/

variable {text : List Char} {t : Token} {e : ParseError}

theorem Parser.Gives.within (h : Gives ((Window.ofText text).answers.map some) t) :
    t.span.Within 0 text.length := by
  obtain ⟨answer, hmem, hanswer⟩ := List.mem_map.mp h.1
  obtain rfl : answer = .ok t := Option.some.inj hanswer
  have hwithin := Window.answers_within _ _ hmem h.2
  rwa [Window.stop, Window.position_ofText, Window.text_ofText, Nat.zero_add] at hwithin

theorem Parser.Origin.exists_within (h : Origin ((Window.ofText text).answers.map some) e) :
    ∃ span, e.span? = some span ∧ span.Within 0 text.length := by
  cases e with
  | lexical e =>
    obtain ⟨answer, hmem, hanswer⟩ := List.mem_map.mp h
    obtain rfl : answer = .error e := Option.some.inj hanswer
    have hwithin : e.span.Within _ _ := Window.answers_within _ _ hmem
    rw [Window.stop, Window.position_ofText, Window.text_ofText, Nat.zero_add] at hwithin
    exact ⟨e.span, rfl, hwithin⟩
  | syntactic cause span =>
    obtain ⟨t, u, ht, hu, rfl⟩ := h
    exact ⟨_, rfl, ht.within.merge hu.within⟩
  | internal fault => exact absurd h id

/-- **Every error of a parser on a text has a place in the text**, and is one that the tokenizer
    gave or spans tokens that it gave, the end marker not among them. -/
theorem errors_located (calls : Nat)
    (h : ((Parser.ofText text).after calls).parse.result = .error e) :
    ∃ span, e.span? = some span ∧ span.start < span.stop ∧ span.stop ≤ text.length ∧
      Parser.Origin ((Window.ofText text).answers.map some) e := by
  have horigin : Parser.Origin ((Window.ofText text).answers.map some) e :=
    Parser.origin_of_parse calls h
  obtain ⟨span, hspan, hwithin⟩ := horigin.exists_within
  exact ⟨span, hspan, hwithin.start_lt, hwithin.stop_le, horigin⟩

/-- The first parse stops in front of the second parenthesis; the next one begins there, and blames
    it up to the last name. -/
theorem errors_located_again :
    ((Parser.ofText "( a ( b c".toList).after 1).parse.result
        = .error (.syntactic .unclosedParen ⟨4, 9⟩) ∧
      Parser.Origin ((Window.ofText "( a ( b c".toList).answers.map some)
        (.syntactic .unclosedParen ⟨4, 9⟩) := by
  have hresult : ((Parser.ofText "( a ( b c".toList).after 1).parse.result
      = .error (.syntactic .unclosedParen ⟨4, 9⟩) := by decide +kernel
  obtain ⟨_, -, -, -, horigin⟩ := errors_located 1 hresult
  exact ⟨hresult, horigin⟩

/-! ## Which error it is -/

namespace Parser

/-- The parse of tokens alone: a fresh parser, and an end marker behind them. -/
def alone (tokens : List Token) : Parsing := (ofTokens (tokens ++ [.endOfFile])).parse

/-- The error that is found in tokens with a lexical error behind them: that of the tokens alone, if
    for it nothing behind them has been asked for, and the lexical error otherwise. -/
def errorBefore (tokens : List Token) (e : LexError) : ParseError :=
  match (alone tokens).result with
  | .ok _ => .lexical e
  | .error fault =>
    if (alone tokens).parser.source.asked ≤ tokens.length then fault else .lexical e

variable {tokens : List Token}

theorem parse_before_eq (hinner : ∀ t ∈ tokens, t.isEndOfFile = false) (e : LexError) :
    (ofTokensBefore tokens e).parse.result = .error (errorBefore tokens e) := by
  have hparse : (ofTokensBefore tokens e).parse.result =
      match (alone tokens).result with
      | .ok _ => .error (.lexical e)
      | .error fault =>
        if (alone tokens).parser.source.asked ≤ tokens.length then .error fault
        else .error (.lexical e) := parse_before_error hinner ⟨0, 0⟩ e
  rw [hparse, errorBefore]
  split
  · rfl
  · split <;> rfl

/-- In tokens only syntax errors are found. -/
theorem syntactic_of_parse_tokens (h : (ofTokens tokens).parse.result = .error e) :
    ∃ cause span, e = .syntactic cause span := by
  have horigin : Origin ((tokens.map Except.ok).map some) e := origin_of_parse 0 h
  cases e with
  | lexical e =>
    rw [List.map_map] at horigin
    obtain ⟨t, -, ht⟩ := List.mem_map.mp horigin
    exact nomatch ht
  | syntactic cause span => exact ⟨cause, span, rfl⟩
  | internal fault => exact absurd horigin id

theorem eq_of_errorBefore {e e' : LexError} (h : errorBefore tokens e = .lexical e') : e = e' := by
  unfold errorBefore at h
  split at h
  · exact ParseError.lexical.inj h
  · next fault hfault =>
    obtain ⟨cause, span, rfl⟩ := syntactic_of_parse_tokens hfault
    split at h
    · exact nomatch h
    · exact ParseError.lexical.inj h

end Parser

/-- A source without a lexical error is parsed as its tokens; one with a lexical error, as the
    tokens in front of it and the error. -/
theorem exists_tokens (source : String) :
    ∃ before : List Token, (∀ t ∈ before, t.isEndOfFile = false) ∧
      (tokenize source = .ok (before ++ [.endOfFile]) ∧
          parse source = (Parser.alone before).result ∨
        ∃ e, tokenize source = .error e ∧
          (readingsOf source).map Reading.answer = before.map .ok ++ [.error e] ∧
            parse source = .error (Parser.errorBefore before e)) := by
  obtain ⟨pieces, ending, hdivides⟩ := exists_divides (Newline.normalizeChars source.toList)
  have hanswers := answers_readingsOf hdivides
  have htokenize := tokenize_of_divides hdivides
  have hinner : ∀ t ∈ Piece.tokens 0 pieces, t.isEndOfFile = false :=
    fun _ => Piece.ne_endOfFile_of_mem_tokens
  refine ⟨Piece.tokens 0 pieces, hinner, ?_⟩
  cases ending with
  | clean gap =>
    refine .inl ⟨htokenize, ?_⟩
    rw [Parser.alone, ofTokens_concat]
    exact parse_of_answers hanswers
  | broken gap bad cause length =>
    refine .inr ⟨_, htokenize, hanswers, ?_⟩
    exact (parse_of_answers hanswers).trans (Parser.parse_before_eq hinner _)

/-- No lexical error is found but the one that the tokenizer gives. -/
theorem tokenize_of_parse_lexical {source : String} {e : LexError}
    (h : parse source = .error (.lexical e)) : tokenize source = .error e := by
  obtain ⟨before, -, ⟨-, hparse⟩ | ⟨e', htokenize, -, hparse⟩⟩ := exists_tokens source
  · rw [hparse] at h
    obtain ⟨_, _, hsyntactic⟩ := Parser.syntactic_of_parse_tokens h
    exact nomatch hsyntactic
  · rw [hparse] at h
    rw [htokenize, Parser.eq_of_errorBefore (Except.error.inj h)]

/-- **The parser and the tokenizer agree on the lexical error of a source**, and only an error of
    the tokens in front of it is found instead, if this happens before anything behind these tokens
    is asked for. -/
theorem parse_agrees_with_tokenize (source : String) :
    (∀ e, parse source = .error (.lexical e) → tokenize source = .error e) ∧
    (∀ e, tokenize source = .error e →
      ∃ before : List Token, (readingsOf source).map Reading.answer = before.map .ok ++ [.error e] ∧
        parse source = .error (Parser.errorBefore before e) ∧
        ∀ fault, (Parser.alone before).result = .error fault →
          ∃ cause span, fault = .syntactic cause span) ∧
    (∀ tokens, tokenize source = .ok tokens → ∀ e, parse source ≠ .error (.lexical e)) := by
  refine ⟨fun _ => tokenize_of_parse_lexical, ?_, ?_⟩
  · intro e he
    obtain ⟨before, -, ⟨htokenize, -⟩ | ⟨e', htokenize, hanswers, hparse⟩⟩ := exists_tokens source
    · exact nomatch htokenize.symm.trans he
    · obtain rfl : e' = e := Except.error.inj (htokenize.symm.trans he)
      exact ⟨before, hanswers, hparse, fun _ => Parser.syntactic_of_parse_tokens⟩
  · intro tokens htokens e he
    exact nomatch htokens.symm.trans (tokenize_of_parse_lexical he)

/-- The string is left open in both texts. Behind two names this is found first; behind three it
    is the second name that is found, before the string is asked for. -/
theorem parse_agrees_open_string :
    tokenize "a b 'x" = .error ⟨.unterminatedString, ⟨4, 6⟩⟩ ∧
      ∃ names : List Token,
        parse "a b c 'x" = .error (Parser.errorBefore names ⟨.unterminatedString, ⟨6, 8⟩⟩) ∧
          Parser.errorBefore names ⟨.unterminatedString, ⟨6, 8⟩⟩
            = .syntactic (.unexpectedToken .name) ⟨2, 3⟩ := by
  have hnear : parse "a b 'x" = .error (.lexical ⟨.unterminatedString, ⟨4, 6⟩⟩) := by
    decide +kernel
  have hfar : tokenize "a b c 'x" = .error ⟨.unterminatedString, ⟨6, 8⟩⟩ := by decide +kernel
  have hname : parse "a b c 'x" = .error (.syntactic (.unexpectedToken .name) ⟨2, 3⟩) := by
    decide +kernel
  obtain ⟨names, -, hparse, -⟩ := (parse_agrees_with_tokenize "a b c 'x").2.1 _ hfar
  refine ⟨(parse_agrees_with_tokenize "a b 'x").1 _ hnear, names, hparse, ?_⟩
  exact Except.error.inj (hparse.symm.trans hname)

end FormulaSyntax
