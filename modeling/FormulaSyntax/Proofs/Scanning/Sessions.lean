import FormulaSyntax.Proofs.Scanning.Bounds

/-!
# Sessions with a tokenizer

A tokenizer can be asked in two ways, for the next answer of its stream and for the next token, and
the two may be mixed. A **session** is any sequence of requests with what became of each of them.
In every session

* a scan gives the end marker if there are only blanks left, and passes a character otherwise, also
  when it ends in an error. So there are no more such scans than characters, and behind the end
  marker there is nothing else;
* the stream ends once. Scans that go around the stream neither end it nor bring it back.

Both come from one lemma on what a request can do (`respond_cases`): the stream has ended and
nothing happens, or the next token is scanned. What a scan does to the window is said in the first
section, and the sessions are inductions on the requests.
-/

set_option autoImplicit false

namespace FormulaSyntax

/-! ## One scan, seen from the text -/

namespace Window

variable {w : Window} {text : List Char}

/-- A window that stands in a text: some characters of it have passed, and the others are ahead. -/
structure Inside (text : List Char) (w : Window) : Prop where
  position_le : w.position ≤ text.length
  text_eq : w.text = text.drop w.position

theorem inside_ofFeed (source : Feed Char) : (ofFeed source).Inside source.live where
  position_le := by rw [position_ofFeed]; exact Nat.zero_le _
  text_eq := by rw [position_ofFeed, text_ofFeed, List.drop_zero]

theorem Inside.position_add (h : w.Inside text) : w.position + w.text.length = text.length := by
  rw [h.text_eq, List.length_drop]
  exact Nat.add_sub_cancel' h.position_le

theorem Inside.pass (h : w.Inside text) {n : Nat} (hn : n ≤ w.text.length) :
    (w.pass n).Inside text where
  position_le := by
    have hstop := h.position_add
    rw [position_pass hn]
    omega
  text_eq := by rw [text_pass, h.text_eq, List.drop_drop, position_pass hn]

theorem Inside.nextToken (h : w.Inside text) : w.nextToken.2.Inside text := by
  obtain ⟨n, hn, hpass⟩ := exists_nextToken_eq_pass w
  rw [hpass]
  exact h.pass hn

/-- **The end marker is what a scan gives if and only if there are only blanks left.** -/
theorem nextToken_eq_endOfFile_iff :
    w.nextToken.1 = .ok .endOfFile ↔ ∀ c ∈ w.text, isBlank c = true := by
  obtain ⟨gap, hgap, htext | ⟨c, rest, htext, hc⟩⟩ := exists_gap w.text
  · rw [nextToken_of_blanks hgap htext, htext]
    exact iff_of_true rfl hgap
  · have hblank : ¬ ∀ d ∈ w.text, isBlank d = true := by
      intro hall
      have hmem : c ∈ w.text := by rw [htext]; simp
      rw [hall c hmem] at hc
      exact nomatch hc
    have hlexeme : w.nextToken.1 ≠ .ok .endOfFile := by
      intro heq
      rw [nextToken_of_gap hgap hc htext] at heq
      obtain ⟨l, hl, hend⟩ := exists_of_map heq
      have hlexable := lexeme_lexable (current?_of_text (text_pass_of_text htext)) hl
      exact hlexable.ne_endOfFile (congrArg Token.lexeme hend)
    exact iff_of_false hlexeme hblank

/-- Behind the end marker there is nothing. -/
theorem text_nextToken_of_blank (h : ∀ c ∈ w.text, isBlank c = true) :
    w.nextToken.2.text = [] := by
  rw [nextToken_of_blanks h rfl, text_pass, List.drop_length]

/-- **Any other scan lets a character pass**, also one that ends in an error. -/
theorem position_lt_nextToken (h : w.nextToken.1 ≠ .ok .endOfFile) :
    w.position < w.nextToken.2.position := by
  obtain ⟨n, hn, hpass⟩ := exists_nextToken_eq_pass w
  have hlt := length_text_nextToken_lt h
  rw [hpass, text_pass, List.length_drop] at hlt
  rw [hpass, position_pass hn]
  omega

end Window

/-! ## Requests -/

/-- The two ways to ask a tokenizer. -/
inductive Request where
  | next
  | nextToken
deriving DecidableEq

/-- A request, what it was answered with, and the tokenizer that it left. -/
structure Exchange where
  request : Request
  answer : Option (Except LexError Token)
  left : Tokenizer

namespace Exchange

/-- Whether something was found in the text: a token that is not the end marker, or an error. -/
def finds (e : Exchange) : Bool :=
  match e.answer with
  | some (.ok t) => !t.isEndOfFile
  | some (.error _) => true
  | none => false

/-- Whether this is the last answer of the stream. -/
def ends (e : Exchange) : Bool := e.request == .next && e.answer.any Tokenizer.endsStream

theorem ends_iff {e : Exchange} :
    e.ends = true ↔ e.request = .next ∧ e.answer.any Tokenizer.endsStream = true := by
  simp [ends]

end Exchange

namespace Tokenizer

/-- Answers a request. Only the stream can answer with nothing. -/
def respond (t : Tokenizer) : Request → Option (Except LexError Token) × Tokenizer
  | .next => t.next
  | .nextToken => (some t.nextToken.1, t.nextToken.2)

/-- All that happens when requests are made one after the other. -/
def session (t : Tokenizer) : List Request → List Exchange
  | [] => []
  | r :: rest => ⟨r, (t.respond r).1, (t.respond r).2⟩ :: (t.respond r).2.session rest

/-- The tokenizer that the requests leave. -/
def after (t : Tokenizer) : List Request → Tokenizer
  | [] => t
  | r :: rest => (t.respond r).2.after rest

variable {t : Tokenizer} {text : List Char}

/-- **A request is met by a stream that has ended, or it scans the next token.** Only the stream
    takes notice of an end. -/
theorem respond_cases (t : Tokenizer) (r : Request) :
    (r = .next ∧ t.finished = true ∧ t.respond r = (none, t)) ∨
      ∃ finished, t.respond r = (some t.window.nextToken.1, ⟨t.window.nextToken.2, finished⟩) ∧
        (r = .next → t.finished = false ∧ finished = endsStream t.window.nextToken.1) ∧
        (r = .nextToken → finished = t.finished) := by
  cases r with
  | nextToken => exact .inr ⟨t.finished, rfl, by simp, fun _ => rfl⟩
  | next =>
    cases hf : t.finished with
    | true => exact .inl ⟨rfl, rfl, by rw [respond, next, if_pos hf]⟩
    | false =>
      refine .inr ⟨endsStream t.window.nextToken.1, ?_, fun _ => ⟨rfl, rfl⟩, by simp⟩
      rw [respond, next, if_neg (by rw [hf]; exact Bool.false_ne_true)]

/-- What every scan keeps is kept by every request. -/
theorem respond_keeps {I : Window → Prop} (hscan : ∀ w, I w → I w.nextToken.2) (h : I t.window)
    (r : Request) : I (t.respond r).2.window := by
  rcases respond_cases t r with ⟨-, -, heq⟩ | ⟨_, heq, -, -⟩
  · rwa [heq]
  · rw [heq]
    exact hscan _ h

theorem after_keeps {I : Window → Prop} (hscan : ∀ w, I w → I w.nextToken.2) (h : I t.window)
    (requests : List Request) : I (t.after requests).window := by
  induction requests generalizing t with
  | nil => exact h
  | cons r rest ih => exact ih (respond_keeps hscan h r)

/-! ## Scans come to an end -/

/-- **A session finds no more than there are characters left.** -/
theorem countP_finds_le (t : Tokenizer) (requests : List Request) :
    (t.session requests).countP Exchange.finds ≤ t.window.text.length := by
  induction requests generalizing t with
  | nil => exact Nat.zero_le _
  | cons r rest ih =>
    have hrest := ih (t.respond r).2
    rw [session, List.countP_cons]
    rcases respond_cases t r with ⟨-, -, heq⟩ | ⟨finished, heq, -, -⟩
    · simpa [heq, Exchange.finds] using hrest
    · obtain ⟨n, -, hpass⟩ := Window.exists_nextToken_eq_pass t.window
      have hle : t.window.nextToken.2.text.length ≤ t.window.text.length := by
        rw [hpass, Window.text_pass, List.length_drop]
        exact Nat.sub_le _ _
      simp only [heq] at hrest ⊢
      split
      · next hfinds =>
        have hlt : t.window.nextToken.2.text.length < t.window.text.length := by
          apply Window.length_text_nextToken_lt
          intro hend
          rw [Exchange.finds, hend] at hfinds
          exact nomatch hfinds
        omega
      · omega

/-- With only blanks left, all further scans give the end marker. -/
theorem answer_of_blank {requests : List Request} (h : ∀ c ∈ t.window.text, isBlank c = true) :
    ∀ e ∈ t.session requests, e.request = .nextToken → e.answer = some (.ok .endOfFile) := by
  induction requests generalizing t with
  | nil => exact fun _ he => absurd he List.not_mem_nil
  | cons r rest ih =>
    have hrest : ∀ c ∈ (t.respond r).2.window.text, isBlank c = true := by
      rcases respond_cases t r with ⟨-, -, heq⟩ | ⟨_, heq, -, -⟩
      · rwa [heq]
      · rw [heq, Window.text_nextToken_of_blank h]
        exact nofun
    intro e he hrequest
    rcases List.mem_cons.mp he with rfl | he
    · obtain rfl : r = .nextToken := hrequest
      exact congrArg some (Window.nextToken_eq_endOfFile_iff.mpr h)
    · exact ih hrest e he hrequest

/-- **Once the end marker was given, every scan gives it.** -/
theorem pairwise_endOfFile (t : Tokenizer) (requests : List Request) :
    (t.session requests).Pairwise fun e e' =>
      e.answer = some (.ok .endOfFile) → e'.request = .nextToken →
        e'.answer = some (.ok .endOfFile) := by
  induction requests generalizing t with
  | nil => exact .nil
  | cons r rest ih =>
    refine .cons ?_ (ih _)
    intro e he hanswer hrequest
    refine answer_of_blank ?_ e he hrequest
    rcases respond_cases t r with ⟨-, -, heq⟩ | ⟨_, heq, -, -⟩
    · rw [heq] at hanswer
      exact nomatch hanswer
    · rw [heq] at hanswer ⊢
      have hblank := Window.nextToken_eq_endOfFile_iff.mp (Option.some.inj hanswer)
      rw [Window.text_nextToken_of_blank hblank]
      exact nofun

/-! ## The stream ends once -/

theorem finished_respond (h : t.finished = true) (r : Request) :
    (t.respond r).2.finished = true := by
  rcases respond_cases t r with ⟨-, -, heq⟩ | ⟨finished, heq, hnext, hscan⟩
  · rwa [heq]
  · rw [heq]
    cases r with
    | next => exact absurd h (by rw [(hnext rfl).1]; exact Bool.false_ne_true)
    | nextToken => exact (hscan rfl).trans h

/-- A stream that has ended has no answer, whatever else is scanned. -/
theorem answer_of_finished {requests : List Request} (h : t.finished = true) :
    ∀ e ∈ t.session requests, e.request = .next → e.answer = none := by
  induction requests generalizing t with
  | nil => exact fun _ he => absurd he List.not_mem_nil
  | cons r rest ih =>
    intro e he hrequest
    rcases List.mem_cons.mp he with rfl | he
    · obtain rfl : r = .next := hrequest
      show t.next.1 = none
      rw [next, if_pos h]
    · exact ih (finished_respond h r) e he hrequest

theorem finished_of_ends {r : Request}
    (h : (⟨r, (t.respond r).1, (t.respond r).2⟩ : Exchange).ends = true) :
    (t.respond r).2.finished = true := by
  obtain ⟨hrequest, hends⟩ := Exchange.ends_iff.mp h
  rcases respond_cases t r with ⟨-, -, heq⟩ | ⟨finished, heq, hnext, -⟩
  · simp [heq] at hends
  · rw [heq] at hends ⊢
    exact (hnext hrequest).2.trans hends

/-- **Behind its last answer a stream has no answer.** -/
theorem pairwise_ends (t : Tokenizer) (requests : List Request) :
    (t.session requests).Pairwise fun e e' =>
      e.ends = true → e'.request = .next → e'.answer = none := by
  induction requests generalizing t with
  | nil => exact .nil
  | cons r rest ih =>
    refine .cons ?_ (ih _)
    intro e he hends
    exact answer_of_finished (finished_of_ends hends) e he

theorem countP_ends_le_one (t : Tokenizer) (requests : List Request) :
    (t.session requests).countP Exchange.ends ≤ 1 := by
  induction requests generalizing t with
  | nil => exact Nat.zero_le _
  | cons r rest ih =>
    have hrest := ih (t.respond r).2
    rw [session, List.countP_cons]
    split
    · next hends =>
      have hnone : ((t.respond r).2.session rest).countP Exchange.ends = 0 := by
        rw [List.countP_eq_zero]
        intro e he hlast
        obtain ⟨hrequest, hany⟩ := Exchange.ends_iff.mp hlast
        rw [answer_of_finished (finished_of_ends hends) e he hrequest] at hany
        exact nomatch hany
      omega
    · exact hrest

/-! ## The stream alone -/

theorem session_next_of_finished (h : t.finished = true) (calls : Nat) :
    (t.session (List.replicate calls .next)).map Exchange.answer = List.replicate calls none := by
  have hnext : t.respond .next = (none, t) := by rw [respond, next, if_pos h]
  induction calls with
  | zero => rfl
  | succ calls ih =>
    rw [List.replicate_succ, session, hnext, List.map_cons, ih, List.replicate_succ]

/-- Asked for nothing but its stream, a tokenizer gives the answers of its window and then nothing,
    however long the asking goes on. -/
theorem session_next_eq (w : Window) {calls : Nat} {more : Nat} (h : calls ≤ more) :
    (session ⟨w, false⟩ (List.replicate calls .next)).map Exchange.answer
      = (w.answers.map some ++ List.replicate more none).take calls := by
  induction calls generalizing w with
  | zero => rfl
  | succ calls ih =>
    have hnext : respond ⟨w, false⟩ .next
        = (some w.nextToken.1, ⟨w.nextToken.2, endsStream w.nextToken.1⟩) := rfl
    rw [List.replicate_succ, session, hnext, List.map_cons, Window.answers_eq, List.map_cons,
      List.cons_append, List.take_succ_cons]
    cases hend : endsStream w.nextToken.1 with
    | true =>
      rw [session_next_of_finished rfl, if_pos rfl, List.map_nil, List.nil_append,
        List.take_replicate, Nat.min_eq_left (Nat.le_of_succ_le h)]
    | false => rw [ih _ (Nat.le_of_succ_le h), if_neg Bool.false_ne_true]

end Tokenizer

theorem Window.length_answers_le (w : Window) : w.answers.length ≤ w.text.length + 1 := by
  rw [answers_eq, List.length_cons]
  cases hend : Tokenizer.endsStream w.nextToken.1 with
  | true => exact Nat.succ_le_succ (Nat.zero_le _)
  | false =>
    have hlt : w.nextToken.2.text.length < w.text.length := by
      apply length_text_nextToken_lt
      intro heq
      rw [heq] at hend
      exact nomatch hend
    have hrest := length_answers_le w.nextToken.2
    simp only [Bool.false_eq_true, if_false]
    omega
termination_by w.text.length

/-! ## Main result -/

namespace Tokenizer

/-- **What holds in every session with a tokenizer**, whatever the two requests are mixed to: a scan
    finds the end or gets on in the text, the stream ends once, and alone it is tokens, one end
    marker or error, and nothing more. -/
theorem session_contract (answers : List (Option Char)) (requests : List Request) :
    let text := Feed.upToGap answers
    let fresh := ofFeed (.ofAnswers answers)
    let t := fresh.after requests
    let exchanges := fresh.session requests
    -- what the next scan finds, and how often scans find something
    ((t.nextToken.1 = .ok .endOfFile ↔ ∀ c ∈ text.drop t.window.position, isBlank c = true) ∧
      (t.nextToken.1 ≠ .ok .endOfFile → t.window.position < t.nextToken.2.window.position) ∧
      t.nextToken.2.window.position ≤ text.length ∧
      exchanges.countP Exchange.finds ≤ text.length ∧
      exchanges.Pairwise fun e e' =>
        e.answer = some (.ok .endOfFile) → e'.request = .nextToken →
          e'.answer = some (.ok .endOfFile)) ∧
    -- the end of the stream
    (exchanges.countP Exchange.ends ≤ 1 ∧
      exchanges.Pairwise fun e e' => e.ends = true → e'.request = .next → e'.answer = none) ∧
    -- the stream alone
    ∃ (tokens : List Token) (last : Except LexError Token), tokens.length ≤ text.length ∧
      (∀ u ∈ tokens, u.isEndOfFile = false) ∧ (last = .ok .endOfFile ∨ ∃ e, last = .error e) ∧
      ∀ calls, (fresh.session (List.replicate calls .next)).map Exchange.answer
        = ((tokens.map Except.ok ++ [last]).map some ++ List.replicate calls none).take calls := by
  intro text fresh t exchanges
  have hfresh : fresh.window.Inside text := Window.inside_ofFeed (.ofAnswers answers)
  have ht : t.window.Inside text := after_keeps (fun _ => Window.Inside.nextToken) hfresh requests
  have hlength : fresh.window.text.length = text.length :=
    congrArg List.length (Window.text_ofFeed (.ofAnswers answers))
  have hscans : exchanges.countP Exchange.finds ≤ text.length := by
    rw [← hlength]
    exact countP_finds_le fresh requests
  have hend : t.nextToken.1 = .ok .endOfFile
      ↔ ∀ c ∈ text.drop t.window.position, isBlank c = true := by
    rw [← ht.text_eq]
    exact Window.nextToken_eq_endOfFile_iff
  refine ⟨⟨hend, Window.position_lt_nextToken, ht.nextToken.position_le, hscans,
    pairwise_endOfFile fresh requests⟩,
    ⟨countP_ends_le_one fresh requests, pairwise_ends fresh requests⟩, ?_⟩
  obtain ⟨tokens, last, hanswers, hlexable, hlast⟩ := Window.answers_lexable fresh.window
  refine ⟨tokens, last, ?_, ?_, hlast, ?_⟩
  · have hle := fresh.window.length_answers_le
    rw [hanswers, List.length_append, List.length_map, hlength] at hle
    exact Nat.le_of_succ_le_succ hle
  · intro u hu
    rw [Bool.eq_false_iff]
    intro hmark
    exact (hlexable u hu).ne_endOfFile (Token.isEndOfFile_iff.mp hmark)
  · intro calls
    rw [← hanswers]
    exact session_next_eq fresh.window (Nat.le_refl calls)

-- Behind the error of `0x` the stream is over, while scans go on and find the name behind it.
example :
    ((ofText "0x g\t".toList).session [.next, .nextToken, .next, .nextToken]).map Exchange.answer
      = [some (.error ⟨.emptyRadixDigits, ⟨0, 2⟩⟩), some (.ok (.name "g" ⟨3, 4⟩)), none,
        some (.ok .endOfFile)] := by
  decide +kernel

end Tokenizer

end FormulaSyntax
