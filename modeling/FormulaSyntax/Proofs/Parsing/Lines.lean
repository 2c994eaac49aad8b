import FormulaSyntax.Proofs.Parsing.LexicalErrors

/-!
# Lines behind a formula

A formula that is followed by a line break is complete, and the parser goes on behind the line
break as a fresh parser would on the tokens there (`parse_line`). Neither an item nor a group
reaches over the break, and the two tokens of lookahead into the next line do not change how the
formula is read.

The formula is gone through by its derivation. What a parser comes to behind it is the same as
that of a fresh one because all items are read alike in every place (`decides_allItems`).
-/

set_option autoImplicit false

namespace FormulaSyntax

namespace Parser

/-- What becomes of a parse with a formula in front of it, whose text takes `d` characters. -/
def behindFormula (f : Formula) (d : Nat) : Except ParseError Formula → Except ParseError Formula
  | .ok g => .ok ⟨f.items ++ g.items⟩
  | .error e => .error (e.move d)

/-- **A formula in front of a line break is read, and leaves the parser behind the break.** -/
theorem allItems_line {tokens : List Token} {line : Token} {f : Formula}
    (h : DerivesFormula (tokens.map Token.lexeme) f) (hline : line.lexeme = .symbol .newLine)
    (rest : List Token) (asked : Nat) :
    allItems (onTokens (tokens ++ line :: rest) asked)
      = prepended f.items (allItems (onTokens rest (asked + (tokens.length + 1)))) := by
  have hbreak : ∀ t ∈ [line], t.lexeme = .symbol .newLine := by simpa using hline
  rw [allItems_formula h (endsItem_of_newLine hline rest)]
  exact congrArg (prepended f.items) (allItems_breaks hbreak rest _)

variable {tokens behind : List Token} {line : Token} {f : Formula}

/-- **The tokens of a line behind a formula are parsed as they are alone**, with the formula's
    items in front, and just as many tokens further on. -/
theorem parse_line (h : DerivesFormula (tokens.map Token.lexeme) f)
    (hline : line.lexeme = .symbol .newLine) (behind : List Token) (d : Nat) (span : Span) :
    let alone := (ofTokens (behind ++ [.symbol .endOfFile span])).parse
    let whole := (ofTokens (tokens ++
      line :: (behind.map (Token.move d) ++ [.symbol .endOfFile span]))).parse
    whole.result = behindFormula f d alone.result ∧
      whole.parser.source.asked = alone.parser.source.asked + (tokens.length + 1) := by
  intro alone whole
  obtain ⟨taken, rest, r, htokens, hread, hmove⟩ :=
    exists_reads_allItems (behind ++ [Token.symbol .endOfFile span])
  obtain ⟨others, rfl, rfl⟩ := hread.exists_behind rfl htokens
  have halone := parse_of_allItems (hread.on_tokens 2)
  rw [← htokens] at halone
  have hlike : Alike d (others ++ [Token.symbol .endOfFile span]).head?
      (others.map (Token.move d) ++ [Token.symbol .endOfFile span]).head? := by
    cases others with
    | nil => exact .ended (ended_some rfl) (ended_some rfl)
    | cons t others => exact alike_move d (some t)
  have hwhole := allItems_line h hline
    ((taken ++ others).map (Token.move d) ++ [Token.symbol .endOfFile span]) 2
  rw [List.map_append, List.append_assoc, hread.on_tokens_of_alike hlike, prepended_leaving]
    at hwhole
  obtain ⟨hresult, hparser⟩ := parse_of_allItems hwhole
  rw [← List.append_assoc, ← List.map_append] at hresult hparser
  constructor
  · show whole.result = behindFormula f d alone.result
    rw [hresult, halone.1, hmove d]
    cases r 0 <;> rfl
  · show whole.parser.source.asked = alone.parser.source.asked + (tokens.length + 1)
    rw [hparser, halone.2]
    show 2 + (tokens.length + 1) + taken.length = 2 + taken.length + (tokens.length + 1)
    omega

/-- The same with a lexical error in the line. On both sides it is asked for at the same token. -/
theorem parse_line_before_error (h : DerivesFormula (tokens.map Token.lexeme) f)
    (hline : line.lexeme = .symbol .newLine) (hbehind : ∀ t ∈ behind, t.isEndOfFile = false)
    (d : Nat) (e : LexError) :
    (ofTokensBefore (tokens ++ line :: behind.map (Token.move d)) (e.move d)).parse.result
      = behindFormula f d (ofTokensBefore behind e).parse.result := by
  have hinner : ∀ t ∈ tokens ++ line :: behind.map (Token.move d), t.isEndOfFile = false := by
    intro t ht
    rcases List.mem_append.mp ht with ht | ht
    · exact isEndOfFile_of_lexeme (h.ne_endOfFile t.lexeme (List.mem_map_of_mem ht))
    rcases List.mem_cons.mp ht with rfl | ht
    · exact isEndOfFile_of_lexeme (by simp [hline])
    · obtain ⟨u, hu, rfl⟩ := List.mem_map.mp ht
      exact hbehind u hu
  obtain ⟨hresult, hasked⟩ := parse_line h hline behind d ⟨0, 0⟩
  rw [parse_before_error hinner ⟨0, 0⟩, parse_before_error hbehind ⟨0, 0⟩, List.append_assoc,
    List.cons_append, hresult, hasked, List.length_append, List.length_cons, List.length_map]
  cases (ofTokens (behind ++ [Token.symbol .endOfFile ⟨0, 0⟩])).parse.result with
  | ok g => rfl
  | error fault =>
    simp only [behindFormula]
    split
    · rw [if_pos (by omega)]
    · rw [if_neg (by omega)]
      rfl

end Parser

end FormulaSyntax
