import FormulaSyntax.Proofs.Parsing.Prefixes

/-!
# Tokens with a lexical error behind them

A text in error gives some tokens and then the error. The parser asks two tokens ahead, so it may
meet the error before it has looked at the tokens, and the tokens may be in error themselves.
Which of the two errors is found can be told from the tokens alone (`parse_before_error`): let an
end marker stand behind them. If that parse fails before it has asked for the marker, it has asked
for tokens only, and fails in the same way with the lexical error behind them. **In every other
case the lexical error is found**; no formula is, as the end is out of reach.
-/

set_option autoImplicit false

namespace FormulaSyntax

namespace Parser

/-- A fresh parser on tokens with a lexical error behind them. -/
def ofTokensBefore (tokens : List Token) (e : LexError) : Parser :=
  ofFeed (Feed.ofList (tokens.map .ok ++ [.error e]))

variable {tokens : List Token} {e : LexError}

theorem prime_before (h : 2 ≤ tokens.length) :
    prime (ofTokensBefore tokens e)
      = .ok () (onAnswers (moved 0 tokens ++ [some (.error e)]) 2) := by
  have hanswers : (tokens.map Except.ok ++ [Except.error e]).map some
      = moved 0 tokens ++ [some (.error e)] := by
    rw [List.map_append, List.map_map]
    rfl
  rw [← hanswers]
  exact prime_ofAnswers (hanswers ▸ clear_moved_of_length h _)

theorem prime_before_error (h : tokens.length < 2) :
    ∃ q, prime (ofTokensBefore tokens e) = .error (.lexical e) q := by
  match tokens, h with
  | [], _ | [_], _ => exact ⟨_, rfl⟩

theorem parse_of_prime_error {p q : Parser} {e : ParseError} (h : prime p = .error e q) :
    p.parse.result = .error e := by
  simp only [parse, h]

section Reading

variable {taken behind : List Token} {stop : Token} {r : Nat → Except ParseError (List Expr)}

/-- The error is behind both tokens that are in view in the end, so it is not asked for. -/
theorem parse_before_of_le (hread : Reads (fun _ => allItems) taken (behind ++ [stop]) r)
    (h : 2 ≤ behind.length) :
    (ofTokensBefore (taken ++ behind) e).parse.result = (r 0).map Formula.mk := by
  have hprime : prime (ofTokensBefore (taken ++ behind) e) = _ :=
    prime_before (by rw [List.length_append]; omega)
  rw [moved_append, List.append_assoc] at hprime
  refine (parse_of_prime hprime (hread.follow 0 2 _ (clear_moved_of_length h _) ?_)).1
  cases behind with
  | nil => exact absurd h (by decide)
  | cons t behind => exact alike_move 0 (some t)

/-- The error is asked for, at the latest when the last token is taken. -/
theorem parse_before_of_lt (hread : Reads (fun _ => allItems) taken (behind ++ [stop]) r)
    (h : behind.length < 2) :
    (ofTokensBefore (taken ++ behind) e).parse.result = .error (.lexical e) := by
  by_cases hlength : 2 ≤ (taken ++ behind).length
  · have hlt : (taken ++ behind).length < taken.length + 2 := by
      rw [List.length_append]
      omega
    obtain ⟨q, hq⟩ := hread.stop 0 2 (taken ++ behind) e [] ⟨[stop], by simp⟩ hlength hlt
    exact (parse_of_prime (r := .error (.lexical e)) (prime_before hlength) hq).1
  · obtain ⟨q, hq⟩ := prime_before_error (e := e) (Nat.lt_of_not_le hlength)
    exact parse_of_prime_error hq

/-- A formula is read up to the end marker. -/
theorem eq_nil_of_reads_ok {a : Nat → List Expr}
    (hread : Reads (fun _ => allItems) taken (behind ++ [stop]) (fun d => .ok (a d)))
    (hbehind : ∀ t ∈ behind, t.isEndOfFile = false) : behind = [] := by
  have hparsed := itemsFrom_parsed (onTokens (taken ++ (behind ++ [stop])) 2) [] []
  have hitems := itemsFrom_eq (onTokens (taken ++ (behind ++ [stop])) 2) [] []
  rw [hread.on_tokens 2] at hitems
  obtain ⟨hresult, hparser⟩ := Prod.mk.inj hitems
  simp only [Parsed, hresult, hparser] at hparsed
  cases behind with
  | nil => rfl
  | cons t behind =>
    have hend : t.isEndOfFile = true := hparsed.1
    rw [hbehind t List.mem_cons_self] at hend
    exact absurd hend Bool.false_ne_true

end Reading

/-- **Of tokens with a lexical error behind them, a parse finds an error of the tokens if it asks
    for tokens only, and the lexical error otherwise.** -/
theorem parse_before_error (hts : ∀ t ∈ tokens, t.isEndOfFile = false) (span : Span)
    (e : LexError) :
    (ofTokensBefore tokens e).parse.result =
      match (ofTokens (tokens ++ [.symbol .endOfFile span])).parse.result with
      | .ok _ => .error (.lexical e)
      | .error fault =>
        if (ofTokens (tokens ++ [.symbol .endOfFile span])).parse.parser.source.asked
            ≤ tokens.length then .error fault
        else .error (.lexical e) := by
  obtain ⟨taken, rest, htokens, ⟨a, hread, -⟩ | ⟨fault, hread, -⟩⟩ :=
    decides_allItems (tokens ++ [.symbol .endOfFile span])
  · obtain ⟨hresult, -⟩ := parse_of_allItems (hread.on_tokens 2)
    rw [← htokens] at hresult
    obtain ⟨behind, rfl, rfl⟩ := hread.exists_behind rfl htokens
    have hnil := eq_nil_of_reads_ok hread fun t ht => hts t (List.mem_append_right _ ht)
    simp only [hresult, parse_before_of_lt hread (by rw [hnil]; decide)]
    rfl
  · obtain ⟨hresult, hparser⟩ := parse_of_allItems (hread.on_tokens 2)
    rw [← htokens] at hresult hparser
    obtain ⟨behind, rfl, rfl⟩ := hread.exists_behind rfl htokens
    simp only [hresult, hparser]
    show _ = if 2 + taken.length ≤ (taken ++ behind).length then _ else _
    rw [List.length_append]
    split
    · next hle => exact parse_before_of_le hread (by omega)
    · next hlt => exact parse_before_of_lt hread (by omega)

theorem parse_before_ne_ok (hts : ∀ t ∈ tokens, t.isEndOfFile = false) {f : Formula} :
    (ofTokensBefore tokens e).parse.result ≠ .ok f := by
  rw [parse_before_error hts ⟨0, 0⟩]
  split
  · exact nofun
  · split <;> exact nofun

end Parser

end FormulaSyntax
