import FormulaSyntax.Proofs.Parsing.Milestones
import FormulaSyntax.Proofs.Scanning.Demand
import FormulaSyntax.Proofs.Source.Errors

/-!
# The answers that a parse of a source is given

A parse asks the tokenizer for some of the answers that it would give to the source: for those that
are `pulled`. A parse that succeeds has asked for all of them, and the last one is the end
(`pulled_of_parse_ok`), which stands behind the last character of the text. A parse that fails
has been given an error just if it fails with that error (`exists_error_pulled_iff`).
-/

set_option autoImplicit false

namespace FormulaSyntax

/-! ## All answers -/

/-- Where an answer leaves the text: behind a token, and at the end behind all of it. -/
def Reading.Leaves (text : List Char) (r : Reading) : Prop :=
  ∀ t, r.answer = .ok t → r.position = if t.isEndOfFile then text.length else t.span.stop

theorem Tokenizer.leaves_readingsFrom {text : List Char} {t : Tokenizer} {given : List Reading}
    (ht : t.window.Inside text) (hgiven : ∀ r ∈ given, r.Leaves text) :
    ∀ r ∈ t.readingsFrom given, r.Leaves text := by
  fun_induction readingsFrom t given with
  | case1 t given rest h => exact fun r hr => hgiven r (List.mem_reverse.mp hr)
  | case2 t given answer t' h ih =>
    have hrespond : t.respond .next = (some answer, t') := h
    have hnext : t'.window.Inside text := by
      have hkeeps := respond_keeps (fun _ => Window.Inside.nextToken) ht .next
      rwa [hrespond] at hkeeps
    refine ih hnext ?_
    intro r hr
    rcases List.mem_cons.mp hr with rfl | hr
    · intro u hu
      have hleaves := position_of_answer ht [.next] _ List.mem_cons_self u
      rw [hrespond] at hleaves
      exact hleaves (congrArg some hu)
    · exact hgiven r hr

/-- The characters of a source as it is read, with line ends normalized. -/
def normalized (source : String) : List Char := Newline.normalizeChars source.toList

theorem leaves_readingsOf (source : String) :
    ∀ r ∈ readingsOf source, r.Leaves (normalized source) := by
  have hinside := Window.inside_ofFeed (.ofList (normalized source))
  rw [Feed.live_ofList] at hinside
  exact Tokenizer.leaves_readingsFrom hinside nofun

/-- A source has one lexical error at most. -/
theorem tokenize_of_mem_readings {source : String} {r : Reading} {e : LexError}
    (hr : r ∈ readingsOf source) (he : r.answer = .error e) : tokenize source = .error e := by
  have hmem : .error e ∈ (readingsOf source).map Reading.answer :=
    List.mem_map.mpr ⟨r, hr, he⟩
  obtain ⟨before, -, ⟨htokenize, -⟩ | ⟨e', htokenize, hanswers, -⟩⟩ := exists_tokens source
  · have hanswers : (readingsOf source).map Reading.answer = _ := tokenize_eq_ok_iff.mp htokenize
    rw [hanswers] at hmem
    obtain ⟨t, -, ht⟩ := List.mem_map.mp hmem
    exact nomatch ht
  · rw [hanswers] at hmem
    rcases List.mem_append.mp hmem with hmem | hmem
    · obtain ⟨t, -, ht⟩ := List.mem_map.mp hmem
      exact nomatch ht
    · rw [htokenize, Except.error.inj (List.mem_singleton.mp hmem)]

/-! ## The answers that are pulled -/

/-- How often the tokenizer is asked in a parse of a source. -/
def askedFor (source : String) : Nat :=
  (Parser.ofReadings (readingsOf source)).parse.parser.source.asked

/-- The answers that a parse of a source is given. -/
def pulled (source : String) : List Reading := (readingsOf source).take (askedFor source)

theorem Parser.asked_of_parse_ok {tokens : List Token} {stop : Token}
    (hts : ∀ t ∈ tokens, t.isEndOfFile = false) (hstop : stop.isEndOfFile = true) {f : Formula}
    (h : (ofTokens (tokens ++ [stop])).parse.result = .ok f) :
    (ofTokens (tokens ++ [stop])).parse.parser.source.asked = tokens.length + 2 := by
  obtain ⟨taken, rest, htokens, ⟨a, hread, -⟩ | ⟨fault, hread, -⟩⟩ :=
    decides_allItems (tokens ++ [stop])
  · obtain ⟨hresult, hparser⟩ := parse_of_allItems (hread.on_tokens 2)
    rw [← htokens] at hparser
    obtain ⟨behind, rfl, rfl⟩ := hread.exists_behind hstop htokens
    obtain rfl := eq_nil_of_reads_ok hread fun t ht => hts t (List.mem_append_right _ ht)
    rw [hparser, List.append_nil]
    exact Nat.add_comm _ _
  · obtain ⟨hresult, -⟩ := parse_of_allItems (hread.on_tokens 2)
    rw [← htokens, h] at hresult
    exact nomatch hresult

/-- **A parse that succeeds has asked for all answers**: some tokens, and the end behind them. -/
theorem pulled_of_parse_ok {source : String} {f : Formula} (h : parse source = .ok f) :
    ∃ before : List Token, (∀ t ∈ before, t.isEndOfFile = false) ∧
      tokenize source = .ok (before ++ [.endOfFile]) ∧
      pulled source = readingsOf source ∧
      (pulled source).map Reading.answer = (before ++ [Token.endOfFile]).map .ok := by
  obtain ⟨before, hinner, ⟨htokenize, -⟩ | ⟨e, -, -, hparse⟩⟩ := exists_tokens source
  · have hanswers : (readingsOf source).map Reading.answer
        = (before ++ [Token.endOfFile]).map .ok :=
      tokenize_eq_ok_iff.mp htokenize
    have hparser :
        Parser.ofReadings (readingsOf source) = Parser.ofTokens (before ++ [.endOfFile]) := by
      rw [Parser.ofReadings, hanswers, Parser.ofTokens]
    have hasked : askedFor source = before.length + 2 := by
      rw [askedFor, hparser]
      refine Parser.asked_of_parse_ok hinner rfl (f := f) ?_
      rw [← hparser]
      exact h
    have hall : pulled source = readingsOf source := by
      have hlength := congrArg List.length hanswers
      simp only [List.length_map, List.length_append, List.length_singleton] at hlength
      exact List.take_of_length_le (by omega)
    exact ⟨before, hinner, htokenize, hall, hall ▸ hanswers⟩
  · rw [h] at hparse
    cases hparse

theorem take_answers (source : String) (asked : Nat) :
    (((readingsOf source).map Reading.answer).map some).take asked
      = ((readingsOf source).take asked).map fun r => some r.answer := by
  rw [List.map_map, ← List.map_take]
  rfl

/-- **An error is pulled just if the parse fails with it.** -/
theorem exists_error_pulled_iff (source : String) (e : LexError) :
    (∃ r ∈ pulled source, r.answer = .error e) ↔ parse source = .error (.lexical e) := by
  have hunbroken := Parser.unbroken_ofFeed (((readingsOf source).map Reading.answer).map some)
  constructor
  · rintro ⟨r, hr, he⟩
    -- Some lexical error is found, and there is only one.
    have hlexical : ∃ e', parse source = .error (.lexical e') := by
      refine Classical.byContradiction fun hnot => ?_
      have hnone := hunbroken.parse fun e' he' => hnot ⟨e', he'⟩
      apply hnone.not_mem e
      rw [take_answers]
      exact List.mem_map.mpr ⟨r, hr, congrArg some he⟩
    obtain ⟨e', he'⟩ := hlexical
    have htokenize := tokenize_of_parse_lexical he'
    rw [tokenize_of_mem_readings (List.mem_of_mem_take hr) he] at htokenize
    rw [he', Except.error.inj htokenize]
  · intro h
    have hlast := (hunbroken.toTracks.parse.2 e h).1.last_eq
    rw [take_answers] at hlast
    obtain ⟨r, hr, he⟩ := List.mem_map.mp (List.mem_of_getLast? hlast)
    exact ⟨r, hr, Option.some.inj he⟩

end FormulaSyntax
