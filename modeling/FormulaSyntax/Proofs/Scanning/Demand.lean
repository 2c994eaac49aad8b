import FormulaSyntax.Proofs.Scanning.Sessions

/-!
# Characters are asked for on demand

How often a tokenizer has asked its feed is a matter of how many characters have passed: two more
than these, for the two in view, and once behind the text when its end is in view. This holds before
the first request and after each one, in every session (`pulls_on_demand`).

So a feed is not asked again once it has answered with nothing, and what it would give behind a gap
makes no difference. That is shown by running a session on the feed and the same session on the
text in front of the gap side by side: the two windows have different feeds, but the same text
ahead, at the same position (`Mirrors`).
-/

set_option autoImplicit false

namespace FormulaSyntax

/-! ## How often a window has asked -/

namespace Window

variable {w v : Window} {text : List Char}

/-- A window that stands in a text and has asked for the characters in view, no less and no more. -/
structure OnDemand (text : List Char) (w : Window) : Prop extends Inside text w where
  asked_eq : w.source.asked = min (w.position + 2) (text.length + 1)

theorem onDemand_ofFeed (answers : List (Option Char)) :
    (ofFeed (.ofAnswers answers)).OnDemand (Feed.upToGap answers) := by
  refine ⟨inside_ofFeed (.ofAnswers answers), ?_⟩
  match answers with
  | [] | none :: _ | [some _] | some _ :: none :: _ => rfl
  | some c :: some d :: rest =>
    show 2 = min 2 ((Feed.upToGap rest).length + 1 + 1 + 1)
    omega

/-- With two characters in view one more is asked for; with one or none the feed has run dry. -/
theorem OnDemand.advance (h : w.OnDemand text) : w.advance.OnDemand text := by
  have hstop := h.position_add
  have hasked := h.asked_eq
  obtain ⟨ahead, source, position⟩ := w
  cases ahead with
  | dry => exact h
  | last c =>
    have hpass := h.toInside.pass (Nat.le_refl 1)
    refine ⟨hpass, ?_⟩
    change position + 1 = text.length at hstop
    change source.asked = min (position + 2) (text.length + 1) at hasked
    show source.asked = min (position + 1 + 2) (text.length + 1)
    omega
  | pair c d =>
    have hpass := h.toInside.pass (n := 1) (Nat.succ_le_succ (Nat.zero_le _))
    refine ⟨hpass, ?_⟩
    have hmore : (behind d source).2.asked = source.asked + 1 := by
      unfold behind
      split
      · next hask => rw [← Feed.asked_ask, hask]
      · next hask => rw [← Feed.asked_ask, hask]
    change position + (source.live.length + 1 + 1) = text.length at hstop
    change source.asked = min (position + 2) (text.length + 1) at hasked
    show (behind d source).2.asked = min (position + 1 + 2) (text.length + 1)
    omega

theorem OnDemand.pass (h : w.OnDemand text) (n : Nat) : (w.pass n).OnDemand text := by
  induction n generalizing w with
  | zero => exact h
  | succ n ih => exact ih h.advance

theorem OnDemand.nextToken (h : w.OnDemand text) : w.nextToken.2.OnDemand text := by
  obtain ⟨n, -, hpass⟩ := exists_nextToken_eq_pass w
  rw [hpass]
  exact h.pass n

/-! ## A scan sees the text and the position only -/

/-- **Windows with the same text ahead, at the same position, are scanned alike**, whatever feeds
    are behind them. -/
theorem nextToken_congr (htext : w.text = v.text) (hposition : w.position = v.position) :
    w.nextToken.1 = v.nextToken.1 ∧
      ∃ n, n ≤ w.text.length ∧ w.nextToken.2 = w.pass n ∧ v.nextToken.2 = v.pass n := by
  obtain ⟨gap, hgap, hv | ⟨c, rest, hv, hc⟩⟩ := exists_gap v.text
  · rw [nextToken_of_blanks hgap (htext.trans hv), nextToken_of_blanks hgap hv]
    refine ⟨rfl, gap.length, ?_, rfl, rfl⟩
    exact Nat.le_of_eq (congrArg List.length (htext.trans hv)).symm
  · obtain ⟨r, n, hn, hread⟩ := exists_lexeme c rest
    have hscan : ∀ {u : Window}, u.text = gap ++ c :: rest →
        lexeme c (u.pass gap.length)
          = (placedAt (u.position + gap.length) r, u.pass (gap.length + n)) := by
      intro u hu
      have hrest := text_pass_of_text hu
      rw [← List.append_nil (c :: rest)] at hrest
      rw [hread _ [] closes_nil (.inr (.inl rfl)) hrest, position_pass_of_text hu, pass_pass]
    have hle : ∀ {u : Window}, u.text = gap ++ c :: rest → gap.length + n ≤ u.text.length := by
      intro u hu
      rw [hu, List.length_append, List.length_cons]
      omega
    have hw := htext.trans hv
    rw [nextToken_of_gap hgap hc hw, nextToken_of_gap hgap hc hv, hscan hw, hscan hv]
    refine ⟨?_, gap.length + n, hle hw, rfl, rfl⟩
    simp only [spanFrom, position_pass (hle hw), position_pass (hle hv), hposition]

/-- A token ends where its scan has stopped. -/
theorem position_nextToken_of_ok {t : Token} (h : w.nextToken.1 = .ok t)
    (ht : t.isEndOfFile = false) : w.nextToken.2.position = t.span.stop := by
  obtain ⟨gap, hgap, htext | ⟨c, rest, htext, hc⟩⟩ := exists_gap w.text
  · rw [nextToken_of_blanks hgap htext] at h
    obtain rfl := Except.ok.inj h
    exact nomatch ht
  · rw [nextToken_of_gap hgap hc htext] at h ⊢
    obtain ⟨l, -, rfl⟩ := exists_of_map h
    rfl

theorem Inside.position_nextToken_of_blank (h : w.Inside text)
    (hblank : ∀ c ∈ w.text, isBlank c = true) : w.nextToken.2.position = text.length := by
  have hstop := h.nextToken.position_add
  rwa [text_nextToken_of_blank hblank] at hstop

end Window

/-! ## Sessions -/

/-- What can be seen of an exchange: the answer, how many characters have passed, and how often the
    feed has been asked. -/
def Exchange.seen (e : Exchange) : Option (Except LexError Token) × Nat × Nat :=
  (e.answer, e.left.window.position, e.left.window.source.asked)

namespace Tokenizer

variable {t t' : Tokenizer} {text : List Char}

/-- Behind a token of the text its span has passed, and behind the end marker all of the text. -/
theorem position_of_answer (h : t.window.Inside text) (requests : List Request) :
    ∀ e ∈ t.session requests, ∀ u, e.answer = some (.ok u) →
      e.left.window.position = if u.isEndOfFile then text.length else u.span.stop := by
  induction requests generalizing t with
  | nil => exact fun _ he => absurd he List.not_mem_nil
  | cons r rest ih =>
    intro e he u hu
    rcases List.mem_cons.mp he with rfl | he
    · rcases respond_cases t r with ⟨-, -, heq⟩ | ⟨_, heq, -, -⟩
      · simp [heq] at hu
      · simp only [heq, Option.some.injEq] at hu ⊢
        cases hend : u.isEndOfFile with
        | false => exact Window.position_nextToken_of_ok hu hend
        | true =>
          have hmark : u = .endOfFile := by
            rcases Window.nextToken_lexable hu with hmark | hlexable
            · exact hmark
            · exact absurd (Token.isEndOfFile_iff.mp hend) hlexable.ne_endOfFile
          rw [hmark] at hu
          exact h.position_nextToken_of_blank (Window.nextToken_eq_endOfFile_iff.mp hu)
    · exact ih (respond_keeps (fun _ => Window.Inside.nextToken) h r) e he u hu

/-- Two tokenizers at the same place of the same text, on feeds that may be different. -/
structure Mirrors (text : List Char) (t t' : Tokenizer) : Prop where
  left : t.window.OnDemand text
  right : t'.window.OnDemand text
  position_eq : t.window.position = t'.window.position
  finished_eq : t.finished = t'.finished

theorem Mirrors.text_eq (h : Mirrors text t t') : t.window.text = t'.window.text := by
  rw [h.left.text_eq, h.right.text_eq, h.position_eq]

theorem Mirrors.asked_eq (h : Mirrors text t t') :
    t.window.source.asked = t'.window.source.asked := by
  rw [h.left.asked_eq, h.right.asked_eq, h.position_eq]

theorem Mirrors.respond (h : Mirrors text t t') (r : Request) :
    (t.respond r).1 = (t'.respond r).1 ∧ Mirrors text (t.respond r).2 (t'.respond r).2 := by
  obtain ⟨hanswer, n, hn, hleft, hright⟩ := Window.nextToken_congr h.text_eq h.position_eq
  have hn' : n ≤ t'.window.text.length := by rwa [← h.text_eq]
  have hposition : t.window.nextToken.2.position = t'.window.nextToken.2.position := by
    rw [hleft, hright, Window.position_pass hn, Window.position_pass hn', h.position_eq]
  cases r with
  | nextToken =>
    exact ⟨congrArg some hanswer, h.left.nextToken, h.right.nextToken, hposition, h.finished_eq⟩
  | next =>
    have hfinished := h.finished_eq
    unfold Tokenizer.respond next
    cases hf : t.finished with
    | true =>
      rw [hf] at hfinished
      rw [if_pos rfl, if_pos hfinished.symm]
      exact ⟨rfl, h⟩
    | false =>
      rw [hf] at hfinished
      rw [if_neg Bool.false_ne_true, if_neg (by rw [← hfinished]; exact Bool.false_ne_true)]
      exact ⟨congrArg some hanswer, h.left.nextToken, h.right.nextToken, hposition,
        congrArg endsStream hanswer⟩

theorem Mirrors.session (h : Mirrors text t t') (requests : List Request) :
    (t.session requests).map Exchange.seen = (t'.session requests).map Exchange.seen := by
  induction requests generalizing t t' with
  | nil => rfl
  | cons r rest ih =>
    obtain ⟨hanswer, hleft⟩ := h.respond r
    have hseen : Exchange.seen ⟨r, (t.respond r).1, (t.respond r).2⟩
        = Exchange.seen ⟨r, (t'.respond r).1, (t'.respond r).2⟩ := by
      simp only [Exchange.seen, hanswer, hleft.position_eq, hleft.asked_eq]
    rw [Tokenizer.session, Tokenizer.session, List.map_cons, List.map_cons, hseen, ih hleft]

/-! ## Main result -/

/-- **How often a feed is asked**, in every session with a tokenizer on it, is settled by how many
    characters have passed. Then nothing is asked for behind a gap, and nothing depends on what is
    there: the session is the same on the text in front of it. -/
theorem pulls_on_demand (answers : List (Option Char)) (requests : List Request) :
    let text := Feed.upToGap answers
    let fresh := ofFeed (.ofAnswers answers)
    let window := (fresh.after requests).window
    -- the window, after any requests
    (window.position ≤ text.length ∧ window.text = text.drop window.position ∧
      window.source.asked = min (window.position + 2) (text.length + 1) ∧
      window.source.asked ≤ text.length + 1) ∧
    -- where an answer leaves it
    (∀ e ∈ fresh.session requests, ∀ u, e.answer = some (.ok u) →
      e.left.window.position = if u.isEndOfFile then text.length else u.span.stop) ∧
    -- what is behind the text makes no difference
    (fresh.session requests).map Exchange.seen
      = ((ofText text).session requests).map Exchange.seen := by
  intro text fresh window
  have hfresh : fresh.window.OnDemand text := Window.onDemand_ofFeed answers
  have hcut : (ofText text).window.OnDemand text := by
    have hcut := Window.onDemand_ofFeed (text.map some)
    rwa [Feed.upToGap_map_some] at hcut
  have hwindow : window.OnDemand text :=
    after_keeps (fun _ => Window.OnDemand.nextToken) hfresh requests
  have hstart : fresh.window.position = (ofText text).window.position :=
    (Window.position_ofFeed _).trans (Window.position_ofFeed _).symm
  have hmirrors : Mirrors text fresh (ofText text) := ⟨hfresh, hcut, hstart, rfl⟩
  refine ⟨⟨hwindow.position_le, hwindow.text_eq, hwindow.asked_eq, ?_⟩,
    position_of_answer hfresh.toInside requests, hmirrors.session requests⟩
  rw [hwindow.asked_eq]
  exact Nat.min_le_right _ _

-- The letter behind the gap is never asked for.
example :
    ((ofFeed (.ofAnswers [some 'a', none, some 'b'])).session [.next, .nextToken, .next]).map
        Exchange.seen
      = [(some (.ok (.name "a" ⟨0, 1⟩)), 1, 2), (some (.ok .endOfFile), 1, 2),
        (some (.ok .endOfFile), 1, 2)] := by
  decide +kernel

end Tokenizer

end FormulaSyntax
