import FormulaSyntax.Proofs.Parsing.ItemReading

/-!
# Where the tokens end

A feed of tokens can end in three ways: it gives an end marker, it leaves a gap, or it runs dry.
**To a parse these are all the same** (`parse_ends_alike`), and so is whatever a feed gives behind
a marker or a gap. The parser does ask for one answer past the end, to fill its second place, so
this answer must not be a lexical error; it is then never looked at.

The end is told by what is current in some places and by its kind in others. None of them has to
be gone through again here: what all items read is a matter of the tokens, and reading stops in
front of any end (`Reads.follow`).
-/

set_option autoImplicit false

namespace FormulaSyntax

namespace Parser

/-- **What tokens are parsed to depends on no answer behind them**, if these answers begin with an
    end and with no lexical error right behind it. -/
theorem parse_of_ended (tokens : List Token) {finish : List Answer} (hclear : Clear finish)
    (hended : Ended (finish.head?.bind tokenOf?)) :
    (ofFeed (.ofAnswers (moved 0 tokens ++ finish))).parse.result
      = (ofTokens tokens).parse.result := by
  obtain ⟨taken, rest, r, rfl, hread, -⟩ := exists_reads_allItems tokens
  have hlike : Alike 0 rest.head? ((moved 0 rest ++ finish).head?.bind tokenOf?) := by
    cases rest with
    | nil => exact .ended ended_none hended
    | cons t rest => exact alike_move 0 (some t)
  have hprime : prime (ofFeed (.ofAnswers (moved 0 (taken ++ rest) ++ finish))) = _ :=
    prime_ofAnswers (clear_moved hclear)
  rw [moved_append, List.append_assoc] at hprime ⊢
  have hfollow := hread.follow 0 2 (moved 0 rest ++ finish) (clear_moved hclear) hlike
  rw [(parse_of_prime hprime hfollow).1, (parse_of_allItems (hread.on_tokens 2)).1]

variable {stop : Token} {rest : List Answer}

theorem clear_cons {answer : Answer} (hanswer : ∀ e, answer ≠ some (.error e))
    (hrest : ∀ e, rest.head? ≠ some (some (.error e))) : Clear (answer :: rest) := by
  intro e hmem
  cases rest with
  | nil =>
    rw [List.take_of_length_le (by simp), List.mem_singleton] at hmem
    exact hanswer e hmem.symm
  | cons second rest =>
    rcases List.mem_cons.mp hmem with hfirst | hsecond
    · exact hanswer e hfirst.symm
    · exact hrest e (congrArg some (List.mem_singleton.mp hsecond).symm)

/-- **All ends are alike.** Whether the tokens run dry, or an end marker or a gap stands behind
    them and anything but a lexical error behind that, the parse has the same result. -/
theorem parse_ends_alike (tokens : List Token) (hstop : stop.isEndOfFile = true)
    (hrest : ∀ e, rest.head? ≠ some (some (.error e))) :
    let given : List Answer := tokens.map fun t => some (.ok t)
    let dry := (ofFeed (.ofAnswers given)).parse.result
    (ofFeed (.ofAnswers (given ++ [some (.ok stop)]))).parse.result = dry ∧
      (ofFeed (.ofAnswers (given ++ some (.ok stop) :: rest))).parse.result = dry ∧
      (ofFeed (.ofAnswers (given ++ none :: rest))).parse.result = dry := by
  intro given dry
  have hdry : dry = (ofTokens tokens).parse.result := by
    have hnil := @parse_of_ended tokens [] nofun ended_none
    rwa [List.append_nil] at hnil
  rw [hdry]
  exact ⟨parse_of_ended tokens (clear_cons nofun nofun) (ended_some hstop),
    parse_of_ended tokens (clear_cons nofun hrest) (ended_some hstop),
    parse_of_ended tokens (clear_cons nofun hrest) ended_none⟩

/-- The parenthesis in `( a` is unclosed, whatever stands behind the end: here a closing one, and
    a lexical error. -/
theorem parse_ends_unclosed :
    let given : List Answer :=
      [some (.ok (.symbol .leftParen ⟨0, 1⟩)), some (.ok (.name "a" ⟨2, 3⟩))]
    let behind : List Answer :=
      [some (.ok (.symbol .rightParen ⟨4, 5⟩)), some (.error ⟨.emptyExponent, ⟨6, 8⟩⟩)]
    (ofFeed (.ofAnswers (given ++ some (.ok (.symbol .endOfFile ⟨7, 9⟩)) :: behind))).parse.result
        = .error (.syntactic .unclosedParen ⟨0, 1⟩) ∧
      (ofFeed (.ofAnswers (given ++ none :: behind))).parse.result
        = .error (.syntactic .unclosedParen ⟨0, 1⟩) := by
  intro given behind
  have hdry : (ofFeed (.ofAnswers given)).parse.result
      = .error (.syntactic .unclosedParen ⟨0, 1⟩) := by decide +kernel
  obtain ⟨-, hmarker, hgap⟩ := @parse_ends_alike (.symbol .endOfFile ⟨7, 9⟩) behind
    [.symbol .leftParen ⟨0, 1⟩, .name "a" ⟨2, 3⟩] rfl nofun
  exact ⟨hmarker.trans hdry, hgap.trans hdry⟩

end Parser

end FormulaSyntax
