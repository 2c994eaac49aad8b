import FormulaSyntax.Proofs.Parsing.ItemReading

/-!
# Where a parse fails

A parse that fails has asked for two tokens more than it has taken: the current one and the one
behind it. **The tokens taken can always be completed to a formula, and the current one cannot
stand behind them**, whatever comes next (`parse_stops_at_fault`). So the parser neither goes on
behind a fault nor stops in front of one.

Both halves are read off `decides_allItems`. What was taken begins a formula of the grammar, and
the error was reached without a look at what is behind the current token.
-/

set_option autoImplicit false

namespace FormulaSyntax

namespace Parser

/-- What begins a formula is completed by some tokens. -/
theorem exists_parse_of_beginsFormula {tokens : List Token} {stop : Token}
    (hstop : stop.lexeme = .symbol .endOfFile) (h : BeginsFormula (tokens.map Token.lexeme)) :
    ∃ more f, (∀ t ∈ more, t.isEndOfFile = false) ∧
      (ofTokens (tokens ++ (more ++ [stop]))).parse.result = .ok f := by
  obtain ⟨others, f, hd, -⟩ := h
  have hlexemes : (others.map fun l => Token.mk l ⟨0, 0⟩).map Token.lexeme = others := by
    rw [List.map_map]
    exact List.map_id others
  refine ⟨others.map fun l => ⟨l, ⟨0, 0⟩⟩, f, ?_, ?_⟩
  · intro t ht
    obtain ⟨l, hl, rfl⟩ := List.mem_map.mp ht
    exact isEndOfFile_of_lexeme (hd.ne_endOfFile l (List.mem_append_right _ hl))
  · rw [← List.append_assoc]
    apply parse_of_derives hstop
    rwa [List.map_append, hlexemes]

/-- No end marker is taken, so all that is taken stands in front of the last one. -/
theorem Reads.exists_behind {α : Type} {x : Nat → ParseM α} {taken rest tokens : List Token}
    {r : Nat → Except ParseError α} (h : Reads x taken rest r) {stop : Token}
    (hstop : stop.isEndOfFile = true) (htokens : tokens ++ [stop] = taken ++ rest) :
    ∃ behind, tokens = taken ++ behind ∧ rest = behind ++ [stop] := by
  rcases List.eq_nil_or_concat rest with rfl | ⟨behind, last, rfl⟩
  · have hmem : stop ∈ taken := by
      rw [List.append_nil] at htokens
      rw [← htokens]
      simp
    have hinner := h.inner stop hmem
    rw [hstop] at hinner
    exact nomatch hinner
  · rw [List.concat_eq_append, ← List.append_assoc] at htokens
    obtain ⟨hbehind, hlast⟩ := List.append_inj' htokens rfl
    exact ⟨behind, hbehind, by rw [List.concat_eq_append, hlast]⟩

/-- **A parse that fails has taken tokens that begin a formula, and the token in front of which it
    stops is the first one that cannot be mended** by anything that follows. -/
theorem parse_stops_at_fault {tokens : List Token} {span : Span} {e : ParseError}
    (h : (ofTokens (tokens ++ [.symbol .endOfFile span])).parse.result = .error e) :
    ∃ c, (ofTokens (tokens ++ [.symbol .endOfFile span])).parse.parser.source.asked = c + 2 ∧
      c ≤ tokens.length ∧
      (∃ more f, (∀ t ∈ more, t.isEndOfFile = false) ∧
        (ofTokens (tokens.take c ++ (more ++ [.symbol .endOfFile span]))).parse.result = .ok f) ∧
      (c < tokens.length → ∀ more,
        (ofTokens (tokens.take (c + 1) ++ (more ++ [.symbol .endOfFile span]))).parse.result
          = .error e) := by
  obtain ⟨taken, rest, htokens, ⟨_, hread, es, rfl⟩ | ⟨e', hread, hbegins⟩⟩ :=
    decides_allItems (tokens ++ [.symbol .endOfFile span])
  · obtain ⟨hresult, -⟩ := parse_of_allItems (hread.on_tokens 2)
    rw [← htokens, h] at hresult
    exact nomatch hresult
  obtain ⟨hresult, hparser⟩ := parse_of_allItems (hread.on_tokens 2)
  rw [← htokens] at hresult hparser
  rw [ParseError.move_zero, h] at hresult
  obtain rfl : e = e' := Except.error.inj hresult
  obtain ⟨behind, rfl, rfl⟩ := hread.exists_behind rfl htokens
  refine ⟨taken.length, ?_, ?_, ?_, ?_⟩
  · rw [hparser, Nat.add_comm]
    rfl
  · rw [List.length_append]
    exact Nat.le_add_right _ _
  · rw [List.take_left]
    exact exists_parse_of_beginsFormula rfl hbegins
  · intro hlt more
    -- The token in front of which the parse stops is the same, and the rest was not looked at.
    cases behind with
    | nil => exact absurd hlt (by simp)
    | cons t behind =>
      have htake : (taken ++ t :: behind).take (taken.length + 1) = taken ++ [t] := by
        rw [List.take_length_add_append]
        rfl
      have hlike : Alike 0 (t :: behind ++ [Token.symbol .endOfFile span]).head?
          (t :: (more ++ [Token.symbol .endOfFile span])).head? := alike_move 0 (some t)
      rw [htake, List.append_assoc, List.singleton_append,
        ← Token.map_move_zero taken, (parse_of_allItems (hread.on_tokens_of_alike hlike 2)).1,
        ParseError.move_zero]
      rfl

/-- The tokens of `a + ) b`. -/
def strayParen : List Token :=
  [.name "a" ⟨0, 1⟩, .symbol .plus ⟨2, 3⟩, .symbol .rightParen ⟨4, 5⟩, .name "b" ⟨6, 7⟩]

/-- The parenthesis is at fault: nothing that follows it makes a formula. -/
theorem parse_stops_at_paren :
    (ofTokens (strayParen ++ [.symbol .endOfFile ⟨0, 0⟩])).parse.result
        = .error (.syntactic .danglingOperator ⟨2, 3⟩) ∧
      ∀ more, (ofTokens (strayParen.take 3 ++ (more ++ [.symbol .endOfFile ⟨0, 0⟩]))).parse.result
        = .error (.syntactic .danglingOperator ⟨2, 3⟩) := by
  have hresult : (ofTokens (strayParen ++ [.symbol .endOfFile ⟨0, 0⟩])).parse.result
      = .error (.syntactic .danglingOperator ⟨2, 3⟩) := by decide +kernel
  have hasked : (ofTokens (strayParen ++ [.symbol .endOfFile ⟨0, 0⟩])).parse.parser.source.asked
      = 2 + 2 := by decide +kernel
  obtain ⟨c, hc, -, -, hfault⟩ := parse_stops_at_fault hresult
  obtain rfl : 2 = c := Nat.add_right_cancel (hasked.symm.trans hc)
  exact ⟨hresult, hfault (by decide)⟩

end Parser

end FormulaSyntax
