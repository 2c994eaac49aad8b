import FormulaSyntax.Proofs.Scanning.Pieces

/-!
# The tokens tile the text

The spans of a source's tokens are not empty, follow each other without overlap and leave nothing
but blanks between them, from the beginning of the normalized text up to its end or up to the
first error (`tokenize_tiles`). So the text is an interleaving of blanks and the slices of the
spans: no character is dropped, and none belongs to two tokens.

`Tiles` is stated with both its bounds. Then a tiling can be taken apart at the stop of its first
token, and the proofs are inductions on the tokens, or on the pieces that they come from.
-/

set_option autoImplicit false

namespace FormulaSyntax

/-! ## Tilings -/

namespace Span

def Covers (s : Span) (i : Nat) : Prop := s.start ≤ i ∧ i < s.stop

/-- Neighbouring slices make up the slice of both. -/
theorem slice_append {lo mid hi : Nat} (hlo : lo ≤ mid) (hhi : mid ≤ hi) (text : List Char) :
    slice ⟨lo, mid⟩ text ++ slice ⟨mid, hi⟩ text = slice ⟨lo, hi⟩ text := by
  have hdrop : text.drop mid = (text.drop lo).drop (mid - lo) := by
    rw [List.drop_drop, Nat.add_sub_cancel' hlo]
  have hlength : hi - lo = (mid - lo) + (hi - mid) := by omega
  simp only [slice]
  rw [hdrop, hlength, List.take_add]

theorem slice_zero (hi : Nat) (text : List Char) : slice ⟨0, hi⟩ text = text.take hi := rfl

end Span

/-- From one offset to another there are only spaces and tabs in a text. -/
def BlankFrom (text : List Char) (lo hi : Nat) : Prop :=
  ∀ i c, lo ≤ i → i < hi → text[i]? = some c → c = ' ' ∨ c = '\t'

/-- The tokens tile a text from one offset to another, up to blanks. -/
structure Tiles (text : List Char) (lo hi : Nat) (tokens : List Token) : Prop where
  bounds : ∀ t ∈ tokens, lo ≤ t.span.start ∧ t.span.start < t.span.stop ∧ t.span.stop ≤ hi
  ordered : tokens.Pairwise fun t u => t.span.stop ≤ u.span.start
  blank_outside : ∀ i c, lo ≤ i → i < hi → text[i]? = some c →
    (∀ t ∈ tokens, ¬ t.span.Covers i) → c = ' ' ∨ c = '\t'

/-- Runs of blanks with the slices of spans between them, in the order of the spans. -/
inductive Interleaves (text : List Char) : List Span → List Char → Prop
  | blank {gap : List Char} : (∀ c ∈ gap, c = ' ' ∨ c = '\t') → Interleaves text [] gap
  | slice {gap rest : List Char} {s : Span} {spans : List Span} :
      (∀ c ∈ gap, c = ' ' ∨ c = '\t') → Interleaves text spans rest →
        Interleaves text (s :: spans) (gap ++ (s.slice text ++ rest))

theorem BlankFrom.mem_slice {text : List Char} {lo hi : Nat} (h : BlankFrom text lo hi) {c : Char}
    (hc : c ∈ Span.slice ⟨lo, hi⟩ text) : c = ' ' ∨ c = '\t' := by
  obtain ⟨i, hget⟩ := List.mem_iff_getElem?.mp hc
  rw [Span.slice, List.getElem?_take] at hget
  split at hget
  · next hlt =>
    rw [List.getElem?_drop] at hget
    exact h (lo + i) c (Nat.le_add_right lo i) (by dsimp only at hlt; omega) hget
  · cases hget

theorem blankFrom_of_append {text front gap tail : List Char} (h : text = front ++ (gap ++ tail))
    (hgap : ∀ c ∈ gap, isBlank c = true) :
    BlankFrom text front.length (front.length + gap.length) := by
  intro i c hlo hhi hc
  rw [h, List.getElem?_append_right hlo, List.getElem?_append_left (by omega)] at hc
  simpa [isBlank] using hgap c (List.mem_of_getElem? hc)

namespace Tiles

variable {text : List Char} {lo hi : Nat} {t : Token} {tokens : List Token}

theorem nil (h : BlankFrom text lo hi) : Tiles text lo hi [] where
  bounds := nofun
  ordered := .nil
  blank_outside i c hlo hhi hc _ := h i c hlo hhi hc

theorem cons (hstart : lo ≤ t.span.start) (hblank : BlankFrom text lo t.span.start)
    (hspan : t.span.start < t.span.stop) (hstop : t.span.stop ≤ hi)
    (h : Tiles text t.span.stop hi tokens) : Tiles text lo hi (t :: tokens) where
  bounds := by
    intro u hu
    rcases List.mem_cons.mp hu with rfl | hu
    · exact ⟨hstart, hspan, hstop⟩
    · have hbounds := h.bounds u hu
      exact ⟨by omega, hbounds.2⟩
  ordered := List.pairwise_cons.mpr ⟨fun u hu => (h.bounds u hu).1, h.ordered⟩
  blank_outside := by
    intro i c hlo hhi hc houtside
    -- An offset outside the first token is in front of it or behind it.
    by_cases hfront : i < t.span.start
    · exact hblank i c hlo hfront hc
    · have hbehind : t.span.stop ≤ i := by
        apply Nat.le_of_not_lt
        intro hlt
        exact houtside t List.mem_cons_self ⟨Nat.le_of_not_lt hfront, hlt⟩
      exact h.blank_outside i c hbehind hhi hc fun u hu =>
        houtside u (List.mem_cons_of_mem _ hu)

/-- In front of the first token there are blanks, and the other tokens tile what is behind it. -/
theorem uncons (h : Tiles text lo hi (t :: tokens)) :
    BlankFrom text lo t.span.start ∧ Tiles text t.span.stop hi tokens := by
  obtain ⟨hbehind, hordered⟩ := List.pairwise_cons.mp h.ordered
  obtain ⟨hstart, hspan, hstop⟩ := h.bounds t List.mem_cons_self
  refine ⟨?_, ⟨?_, hordered, ?_⟩⟩
  · intro i c hlo hlt hc
    refine h.blank_outside i c hlo (by omega) hc ?_
    intro u hu hcovers
    rcases List.mem_cons.mp hu with rfl | hu
    · exact absurd hcovers.1 (by omega)
    · have hle := hbehind u hu
      exact absurd hcovers.1 (by omega)
  · intro u hu
    exact ⟨hbehind u hu, (h.bounds u (List.mem_cons_of_mem _ hu)).2⟩
  · intro i c hlo hhi hc houtside
    refine h.blank_outside i c (by omega) hhi hc ?_
    intro u hu hcovers
    rcases List.mem_cons.mp hu with rfl | hu
    · exact absurd hcovers.2 (by omega)
    · exact houtside u hu hcovers

/-- **A text that is tiled is an interleaving of blanks and slices.** -/
theorem interleaves (h : Tiles text lo hi tokens) :
    Interleaves text (tokens.map Token.span) (Span.slice ⟨lo, hi⟩ text) := by
  induction tokens generalizing lo with
  | nil =>
    refine .blank ?_
    intro c hc
    have hblank : BlankFrom text lo hi := fun i d hlo hhi hd =>
      h.blank_outside i d hlo hhi hd nofun
    exact hblank.mem_slice hc
  | cons t tokens ih =>
    obtain ⟨hstart, hspan, hstop⟩ := h.bounds t List.mem_cons_self
    obtain ⟨hblank, hrest⟩ := h.uncons
    rw [← Span.slice_append hstart (Nat.le_trans (Nat.le_of_lt hspan) hstop),
      ← Span.slice_append (Nat.le_of_lt hspan) hstop]
    exact .slice (fun c hc => hblank.mem_slice hc) (ih hrest)

end Tiles

/-! ## The tiling of a divided text -/

/-- The tokens of pieces tile the text of the pieces, and blanks behind it. -/
theorem Piece.tiles_tokens {text tail gap : List Char} (hgap : ∀ c ∈ gap, isBlank c = true)
    (pieces : List Piece) :
    ∀ front : List Char, text = front ++ (chars pieces ++ (gap ++ tail)) →
      Tiles text front.length (front.length + (chars pieces).length + gap.length)
        (tokens front.length pieces) := by
  induction pieces with
  | nil =>
    intro front h
    exact .nil (blankFrom_of_append h hgap)
  | cons p pieces ih =>
    intro front h
    have hsplit : text = (front ++ (p.gap ++ p.word)) ++ (chars pieces ++ (gap ++ tail)) := by
      simpa only [chars, List.append_assoc] using h
    have hblank : BlankFrom text front.length (front.length + p.gap.length) := by
      have hword : text = front ++ (p.gap ++ (p.word ++ (chars pieces ++ (gap ++ tail)))) := by
        simpa only [List.append_assoc] using hsplit
      exact blankFrom_of_append hword p.isBlank_gap
    have hword := List.length_pos_iff.mpr p.word_ne_nil
    have hrest := ih _ hsplit
    simp only [List.length_append, ← Nat.add_assoc] at hrest
    simp only [tokens, chars, List.length_append]
    refine .cons (Nat.le_add_right _ _) hblank (by simpa using hword) ?_ ?_
    · show front.length + p.gap.length + p.word.length ≤ _
      omega
    · simpa only [Nat.add_assoc] using hrest

theorem Ending.exists_chars_eq (ending : Ending) : ∃ tail, ending.chars = ending.gap ++ tail := by
  cases ending with
  | clean gap => exact ⟨[], (List.append_nil gap).symm⟩
  | broken gap bad => exact ⟨bad, rfl⟩

/-- The tokens of a divided text tile it up to the blanks that the ending begins with. -/
theorem Divides.tiles {text : List Char} {pieces : List Piece} {ending : Ending}
    (h : Divides text pieces ending) :
    Tiles text 0 ((Piece.chars pieces).length + ending.gap.length) (Piece.tokens 0 pieces) := by
  obtain ⟨tail, htail⟩ := ending.exists_chars_eq
  have hfront : text = [] ++ (Piece.chars pieces ++ (ending.gap ++ tail)) := by
    rw [h.chars_eq, htail, List.nil_append]
  have htiles := Piece.tiles_tokens h.isBlank_gap pieces [] hfront
  rwa [List.length_nil, Nat.zero_add] at htiles

theorem Window.position_ofText (text : List Char) : (ofText text).position = 0 :=
  position_ofFeed (.ofList text)

theorem Reading.collect_of_error {readings : List Reading} {before : List Token} {e : LexError}
    (h : readings.map Reading.answer = before.map .ok ++ [.error e]) (taken : List Token) :
    Reading.collect taken readings = .error e := by
  induction before generalizing readings taken with
  | nil =>
    obtain ⟨reading, rest, rfl, hanswer, -⟩ := List.map_eq_cons_iff.mp h
    simp only [collect, hanswer]
  | cons t before ih =>
    obtain ⟨reading, rest, rfl, hanswer, hrest⟩ := List.map_eq_cons_iff.mp h
    simp only [collect, hanswer]
    exact ih hrest _

/-- The answers to a source whose normalized text is divided. -/
theorem answers_readingsOf {source : String} {pieces : List Piece} {ending : Ending}
    (h : Divides (Newline.normalizeChars source.toList) pieces ending) :
    (readingsOf source).map Reading.answer
      = (Piece.tokens 0 pieces).map .ok ++ [ending.answer (Piece.chars pieces).length] := by
  have hanswers := h.answers_eq _ (Window.text_ofText _)
  rw [Window.position_ofText, Nat.zero_add] at hanswers
  exact hanswers

/-- A source is tokenized as its normalized text is divided. -/
theorem tokenize_of_divides {source : String} {pieces : List Piece} {ending : Ending}
    (h : Divides (Newline.normalizeChars source.toList) pieces ending) :
    tokenize source = (ending.answer (Piece.chars pieces).length).map fun mark =>
      Piece.tokens 0 pieces ++ [mark] := by
  have hanswers := answers_readingsOf h
  cases ending with
  | clean gap =>
    apply tokenize_eq_ok_iff.mpr
    rw [List.map_append]
    exact hanswers
  | broken gap bad cause length => exact Reading.collect_of_error hanswers []

/-- The tokens of a source tile its normalized text. -/
theorem tiles_of_tokenize {source : String} {tokens : List Token}
    (h : tokenize source = .ok tokens) :
    let text := Newline.normalizeChars source.toList
    ∃ before, tokens = before ++ [.endOfFile] ∧ Tiles text 0 text.length before := by
  intro text
  obtain ⟨pieces, ending, hdivides⟩ := exists_divides text
  have htokenize := h.symm.trans (tokenize_of_divides hdivides)
  cases ending with
  | clean gap =>
    have hlength : text.length = (Piece.chars pieces).length + gap.length := by
      rw [hdivides.chars_eq, List.length_append, Ending.chars]
    refine ⟨_, Except.ok.inj htokenize, ?_⟩
    rw [hlength]
    exact hdivides.tiles
  | broken gap bad cause length => cases htokenize

/-- The tokens in front of an error tile the normalized text in front of it. -/
theorem tiles_of_tokenize_error {source : String} {e : LexError}
    (h : tokenize source = .error e) :
    let text := Newline.normalizeChars source.toList
    ∃ before, (readingsOf source).map Reading.answer = before.map .ok ++ [.error e] ∧
      e.span.start ≤ text.length ∧ Tiles text 0 e.span.start before := by
  intro text
  obtain ⟨pieces, ending, hdivides⟩ := exists_divides text
  have htokenize := h.symm.trans (tokenize_of_divides hdivides)
  cases ending with
  | clean gap => cases htokenize
  | broken gap bad cause length =>
    obtain rfl := Except.error.inj htokenize
    have hlength := congrArg List.length hdivides.chars_eq
    rw [List.length_append, Ending.chars, List.length_append, ← Nat.add_assoc] at hlength
    exact ⟨_, answers_readingsOf hdivides, Nat.le.intro hlength.symm, hdivides.tiles⟩

/-- **The tokens of a source tile its normalized text**, up to the end of the text or up to the
    first error. -/
theorem tokenize_tiles (source : String) :
    let text := Newline.normalizeChars source.toList
    match tokenize source with
    | .ok tokens => ∃ before, tokens = before ++ [.endOfFile] ∧ Tiles text 0 text.length before ∧
        Interleaves text (before.map Token.span) text
    | .error e => ∃ before, (readingsOf source).map Reading.answer = before.map .ok ++ [.error e] ∧
        e.span.start ≤ text.length ∧ Tiles text 0 e.span.start before ∧
          Interleaves text (before.map Token.span) (text.take e.span.start) := by
  intro text
  cases htokenize : tokenize source with
  | ok tokens =>
    obtain ⟨before, htokens, htiles⟩ := tiles_of_tokenize htokenize
    have hinterleaves := htiles.interleaves
    rw [Span.slice_zero, List.take_length] at hinterleaves
    exact ⟨before, htokens, htiles, hinterleaves⟩
  | error e =>
    obtain ⟨before, hanswers, hstart, htiles⟩ := tiles_of_tokenize_error htokenize
    have hinterleaves := htiles.interleaves
    rw [Span.slice_zero] at hinterleaves
    exact ⟨before, hanswers, hstart, htiles, hinterleaves⟩

end FormulaSyntax
