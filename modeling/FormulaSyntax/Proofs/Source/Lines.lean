import FormulaSyntax.Proofs.Parsing.Lines
import FormulaSyntax.Proofs.Scanning.Returns
import FormulaSyntax.Proofs.Scanning.Tiling

/-!
# Sources line by line

A source that has a formula may have further lines put behind it. **They are parsed as they are
alone**: a formula gives its items behind those of the source, and an error is the same error,
just that number of characters further on at which the lines begin (`parse_append_line`).

Three things have to come together. The line ends of both parts are normalized apart, since a
source that has a formula does not end in a carriage return. The text behind the line feed is
divided into tokens as it is alone. And the parser goes on behind the line break as a fresh one.
-/

set_option autoImplicit false

namespace FormulaSyntax

/-! ## Pieces further on -/

theorem Piece.tokens_add (position d : Nat) (pieces : List Piece) :
    tokens (position + d) pieces = (tokens position pieces).map (Token.move d) := by
  induction pieces generalizing position with
  | nil => rfl
  | cons p pieces ih =>
    simp only [tokens, List.map_cons, ← ih, Token.move, Span.move]
    rw [Nat.add_right_comm position, Nat.add_right_comm _ d]

theorem Ending.answer_add (position d : Nat) (ending : Ending) :
    ending.answer (position + d) = (ending.answer position).mapError (LexError.move d) := by
  cases ending with
  | clean => rfl
  | broken gap bad cause length =>
    rw [answer, Nat.add_right_comm position, Nat.add_right_comm _ d]
    rfl

/-! ## Two parts of a source -/

variable {source a b : String} {pieces first second : List Piece} {gap : List Char}

/-- The line feed behind a source, as a token. -/
def lineBehind (source : String) : Token :=
  let stop := (Newline.normalizeChars source.toList).length
  ⟨.symbol .newLine, ⟨stop, stop + 1⟩⟩

/-- **A source with a further line behind it gives the tokens of both**, those of the line moved
    on behind the line feed. -/
theorem answers_append_line {ending : Ending}
    (ha : Divides (Newline.normalizeChars a.toList) first (.clean gap))
    (hb : Divides (Newline.normalizeChars b.toList) second ending) :
    (readingsOf (a ++ "\n" ++ b)).map Reading.answer
      = (Piece.tokens 0 first ++ lineBehind a ::
          (Piece.tokens 0 second).map (Token.move (lineBehind a).span.stop)).map .ok
        ++ [(ending.answer (Piece.chars second).length).mapError
          (LexError.move (lineBehind a).span.stop)] := by
  have htext : (Window.ofText (Newline.normalizeChars (a ++ "\n" ++ b).toList)).text
      = Newline.normalizeChars a.toList ++ '\n' :: Newline.normalizeChars b.toList := by
    rw [Window.text_ofText, ← Newline.normalizeChars_line ha.getLast?_ne]
    simp
  obtain ⟨v, hv, hposition, hanswers⟩ := ha.answers_line gap rfl _ _ htext
  rw [Window.position_ofText, Nat.zero_add] at hposition hanswers
  have hstop : v.position = 0 + (lineBehind a).span.stop := by
    rw [hposition, Nat.zero_add]
    rfl
  rw [hb.answers_eq v hv, hstop, Piece.tokens_add, Nat.add_right_comm, Nat.zero_add,
    Ending.answer_add] at hanswers
  rw [List.map_append, List.map_cons, List.append_assoc, List.cons_append]
  exact hanswers

theorem parse_of_answers {answers : List (Except LexError Token)}
    (h : (readingsOf source).map Reading.answer = answers) :
    parse source = (Parser.ofFeed (Feed.ofList answers)).parse.result := by
  rw [parse, Parser.ofReadings, h]

theorem ofTokens_concat (tokens : List Token) (last : Token) :
    Parser.ofTokens (tokens ++ [last])
      = Parser.ofFeed (Feed.ofList (tokens.map .ok ++ [.ok last])) := by
  rw [Parser.ofTokens, List.map_append]
  rfl

/-- A source that has a formula is divided up to its end, and its tokens derive the formula. -/
theorem exists_clean_of_parse {f : Formula} (h : parse source = .ok f) :
    ∃ pieces gap, Divides (Newline.normalizeChars source.toList) pieces (.clean gap) ∧
      DerivesFormula ((Piece.tokens 0 pieces).map Token.lexeme) f := by
  obtain ⟨pieces, ending, hdivides⟩ := exists_divides (Newline.normalizeChars source.toList)
  have hinner : ∀ t ∈ Piece.tokens 0 pieces, t.isEndOfFile = false :=
    fun _ => Piece.ne_endOfFile_of_mem_tokens
  rw [parse_of_answers (answers_readingsOf hdivides)] at h
  cases ending with
  | clean gap =>
    have hstop : Token.endOfFile.lexeme = .symbol .endOfFile := rfl
    refine ⟨pieces, gap, hdivides, Parser.derives_of_parse_stop hstop hinner ?_⟩
    rwa [ofTokens_concat]
  | broken gap bad cause length => exact absurd h (Parser.parse_before_ne_ok hinner)

/-! ## Main result -/

/-- **The lines behind a source that has a formula are parsed as they are alone.** -/
theorem parse_append_line {f : Formula} (h : parse a = .ok f) :
    parse (a ++ "\n" ++ b) =
      match parse b with
      | .ok g => .ok ⟨f.items ++ g.items⟩
      | .error e => .error (e.move ((Newline.normalizeChars a.toList).length + 1)) := by
  obtain ⟨first, gap, ha, hderives⟩ := exists_clean_of_parse h
  obtain ⟨second, ending, hb⟩ := exists_divides (Newline.normalizeChars b.toList)
  rw [parse_of_answers (answers_append_line ha hb), parse_of_answers (answers_readingsOf hb)]
  have hline : (lineBehind a).lexeme = .symbol .newLine := rfl
  show _ = Parser.behindFormula f (lineBehind a).span.stop _
  cases ending with
  | clean =>
    have hresult := (Parser.parse_line hderives hline (Piece.tokens 0 second)
      (lineBehind a).span.stop ⟨0, 0⟩).1
    rw [← List.cons_append, ← List.append_assoc, ofTokens_concat, ofTokens_concat] at hresult
    exact hresult
  | broken =>
    exact Parser.parse_line_before_error hderives hline
      (fun _ => Piece.ne_endOfFile_of_mem_tokens) _ _

/-- The error behind `z +` is found in the second line, behind the six characters of the first. -/
theorem parse_append_dangling :
    parse "x = y" = .ok ⟨[.assign ⟨"x"⟩ (.ident ⟨"y"⟩)]⟩ ∧
      parse ("x = y" ++ "\n" ++ "z +") = .error (.syntactic .danglingOperator ⟨8, 9⟩) := by
  have hfirst : parse "x = y" = .ok ⟨[.assign ⟨"x"⟩ (.ident ⟨"y"⟩)]⟩ := by decide +kernel
  have hsecond : parse "z +" = .error (.syntactic .danglingOperator ⟨2, 3⟩) := by decide +kernel
  refine ⟨hfirst, ?_⟩
  rw [parse_append_line hfirst, hsecond]
  rfl

end FormulaSyntax
