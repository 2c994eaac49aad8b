import FormulaSyntax.Proofs.Scanning.Truncating
import FormulaSyntax.Proofs.Source.Errors

/-!
# Line ends that are normalized again

A normalized text may have a pair of a carriage return and a line feed in it. Where a second
carriage return stood in front of a pair, it then stands in front of the line feed, and the pass
does not look back at it. **That is the only way**: a text has a pair left if and only if it had
such a run of three (`pair_infix_normalizeChars_iff`), and without one normalizing again changes
nothing. So a host may normalize a source before it hands it over, unless the source has such a
run; and then the source is in error anyway, because no token goes across a pair
(`normalize_again`).
-/

set_option autoImplicit false

namespace FormulaSyntax

namespace Newline

/-- A line end that is to be replaced. -/
def pair : List Char := ['\r', '\n']

/-- A line end with a further carriage return in front. -/
def run : List Char := ['\r', '\r', '\n']

variable {text rest : List Char}

/-- A text goes on with a pair, or with a character that does not begin one. -/
@[elab_as_elim]
theorem pairs_induction {P : List Char → Prop} (nil : P [])
    (pair : ∀ rest, P rest → P ('\r' :: '\n' :: rest))
    (cons : ∀ c rest, ¬ Newline.pair <+: c :: rest → P rest → P (c :: rest)) (text : List Char) :
    P text := by
  have h : ∀ written : List Char, P text := by
    intro written
    fun_induction normalizeOnto written text with
    | case1 => exact nil
    | case2 _ rest ih => exact pair rest ih
    | case3 _ c rest hne ih =>
      refine cons c rest ?_ ih
      rintro ⟨tail, htail⟩
      obtain ⟨rfl, rfl⟩ := List.cons.inj htail
      exact hne tail rfl rfl
  exact h []

theorem normalizeChars_cons_of_not_pair {c : Char} (h : ¬ pair <+: c :: rest) :
    normalizeChars (c :: rest) = c :: normalizeChars rest := by
  apply normalizeChars_cons
  rintro tail rfl rfl
  exact h ⟨tail, rfl⟩

/-- A normalized text begins with a line feed if the text does so or begins with a pair. -/
theorem lineFeed_prefix_normalizeChars_iff :
    ['\n'] <+: normalizeChars text ↔ ['\n'] <+: text ∨ pair <+: text := by
  cases text using pairs_induction with
  | nil => simp [pair]
  | pair rest => simp [pair]
  | cons c rest hpair =>
    rw [normalizeChars_cons_of_not_pair hpair]
    simp [hpair]

/-- **A pair is left just where a run was.** -/
theorem pair_infix_normalizeChars_iff : pair <:+: normalizeChars text ↔ run <:+: text := by
  induction text using pairs_induction with
  | nil => simp [pair, run]
  | pair rest ih =>
    rw [normalizeChars_pair, List.infix_cons_iff, ih, List.infix_cons_iff, List.infix_cons_iff]
    simp [pair, run]
  | cons c rest hpair ih =>
    rw [normalizeChars_cons_of_not_pair hpair, List.infix_cons_iff, ih, List.infix_cons_iff]
    have hfront : pair <+: c :: normalizeChars rest ↔ run <+: c :: rest := by
      rw [pair, run, List.cons_prefix_cons, List.cons_prefix_cons,
        lineFeed_prefix_normalizeChars_iff]
      constructor
      · rintro ⟨hc, ⟨tail, htail⟩ | hrest⟩
        · exact absurd ⟨tail, by rw [← hc, ← htail]; rfl⟩ hpair
        · exact ⟨hc, hrest⟩
      · exact fun h => ⟨h.1, .inr h.2⟩
    rw [hfront]

/-- A text is normalized already if it has no pair. -/
theorem normalizeChars_eq_self_iff : normalizeChars text = text ↔ ¬ pair <:+: text := by
  induction text using pairs_induction with
  | nil => simp [pair]
  | pair rest => simp [pair, List.infix_cons_iff]
  | cons c rest hpair ih =>
    rw [normalizeChars_cons_of_not_pair hpair, List.cons.injEq, ih, List.infix_cons_iff]
    simp [hpair]

end Newline

/-- No token goes across a pair of a carriage return and a line feed, so the text of a source
    without an error has none. -/
theorem normalizeChars_of_tokenize {source : String} {tokens : List Token}
    (h : tokenize source = .ok tokens) :
    Newline.normalizeChars (Newline.normalizeChars source.toList)
      = Newline.normalizeChars source.toList := by
  obtain ⟨before, -, ⟨htokenize, -⟩ | ⟨e, htokenize, -⟩⟩ := exists_tokens source
  · have hanswers := tokenize_eq_ok_iff.mp htokenize
    rw [List.map_append] at hanswers
    obtain ⟨kept, behind, hsplit, -, rfl, hreads⟩ := Window.exists_readsAs hanswers
    rw [Window.text_ofText, List.append_nil] at hsplit
    rw [hsplit]
    simpa using hreads.normalizeChars_append []
  · exact nomatch htokenize.symm.trans h

theorem exists_tokenize_of_parse {source : String} {f : Formula} (h : parse source = .ok f) :
    ∃ tokens, tokenize source = .ok tokens := by
  obtain ⟨before, -, ⟨htokenize, -⟩ | ⟨e, -, -, hparse⟩⟩ := exists_tokens source
  · exact ⟨_, htokenize⟩
  · exact nomatch hparse.symm.trans h

theorem readingsOf_normalize {source : String} (h : ¬ Newline.run <:+: source.toList) :
    readingsOf (Newline.normalize source) = readingsOf source := by
  rw [← Newline.pair_infix_normalizeChars_iff, ← Newline.normalizeChars_eq_self_iff] at h
  rw [readingsOf, readingsOf, Newline.normalize, String.toList_ofList, h]

/-! ## Main result -/

/-- **Normalizing leaves a pair in a source, and makes another difference when it is done again,
    just if the source has a run of two carriage returns and a line feed.** A source without one
    is tokenized and parsed as if it had been normalized before, and all others are in error. -/
theorem normalize_again (source : String) :
    (Newline.pair <:+: (Newline.normalize source).toList ↔ Newline.run <:+: source.toList) ∧
    (Newline.normalize (Newline.normalize source) = Newline.normalize source ↔
      ¬ Newline.run <:+: source.toList) ∧
    (¬ Newline.run <:+: source.toList →
      tokenize (Newline.normalize source) = tokenize source ∧
        parse (Newline.normalize source) = parse source) ∧
    (Newline.run <:+: source.toList →
      (∃ e, tokenize source = .error e) ∧ ∃ e, parse source = .error e) := by
  have hchars : (Newline.normalize source).toList = Newline.normalizeChars source.toList :=
    String.toList_ofList
  have htwice : Newline.normalize (Newline.normalize source) = Newline.normalize source ↔
      ¬ Newline.run <:+: source.toList := by
    rw [← Newline.pair_infix_normalizeChars_iff, ← Newline.normalizeChars_eq_self_iff]
    rw [Newline.normalize, hchars, Newline.normalize, String.ofList_inj]
  have hbroken : Newline.run <:+: source.toList → ∀ tokens, tokenize source ≠ .ok tokens := by
    intro hrun tokens htokens
    rw [← Newline.pair_infix_normalizeChars_iff] at hrun
    exact Newline.normalizeChars_eq_self_iff.mp (normalizeChars_of_tokenize htokens) hrun
  refine ⟨?_, htwice, ?_, ?_⟩
  · rw [hchars]
    exact Newline.pair_infix_normalizeChars_iff
  · intro hrun
    have hreadings := readingsOf_normalize hrun
    rw [tokenize, tokenize, parse, parse, hreadings]
    exact ⟨rfl, rfl⟩
  · intro hrun
    constructor
    · cases htokens : tokenize source with
      | ok tokens => exact absurd htokens (hbroken hrun tokens)
      | error e => exact ⟨e, rfl⟩
    · cases hparse : parse source with
      | ok f =>
        obtain ⟨tokens, htokens⟩ := exists_tokenize_of_parse hparse
        exact absurd htokens (hbroken hrun tokens)
      | error e => exact ⟨e, rfl⟩

/-- A run makes all the difference: the source is in error, and is none once it has been
    normalized. -/
theorem normalize_again_run :
    let source := "a\r\r\nb"
    Newline.pair <:+: (Newline.normalize source).toList ∧
      Newline.normalize (Newline.normalize source) ≠ Newline.normalize source ∧
      tokenize (Newline.normalize source) ≠ tokenize source ∧
      parse (Newline.normalize source) ≠ parse source := by
  decide +kernel

end FormulaSyntax
