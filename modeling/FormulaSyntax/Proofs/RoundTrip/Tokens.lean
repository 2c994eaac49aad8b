import FormulaSyntax.Proofs.Parsing.Ensures
import FormulaSyntax.Proofs.Scanning.Lexable
import FormulaSyntax.Token.Render

/-!
# Rendered tokens are read again

Tokens that a source can spell are rendered and tokenized: the same lexemes come back, in the same
order, and the end marker behind them. The spans do not come back, because the rendered text has
single spaces where the source may have had any blanks, and a lexeme may be written in another
way.

The rendered text is a spelled text (`exists_renderOnto_spells`), whatever stands next to what. A
token ends in front of a space or a line break in any case. Only behind a line break there is
neither, and a line break ends in front of everything.
-/

set_option autoImplicit false

namespace FormulaSyntax

/-- A source is tokenized without an error, to tokens of these lexemes and the end marker. -/
def TokenizesTo (source : String) (ls : List Lexeme) : Prop :=
  ∃ tokens, tokenize source = .ok (tokens ++ [.endOfFile]) ∧ tokens.map Token.lexeme = ls

theorem Spells.ne_nil {word : List Char} {l : Lexeme} (h : Spells word l) : word ≠ [] := by
  cases h with
  | @symbol s _ => cases s <;> decide
  | name => simp
  | number hn =>
    obtain ⟨c, others, hcons, -⟩ := hn.exists_chars_eq_cons
    simp [hcons]
  | string => simp

/-- The only word that ends in a line feed is the line break. -/
theorem Spells.eq_newLine {word : List Char} {l : Lexeme} (h : Spells word l)
    (hlast : word.getLast? = some '\n') : l = .symbol .newLine := by
  have hmem : '\n' ∈ word := List.mem_of_getLast? hlast
  cases h with
  | @symbol s _ =>
    revert hlast
    cases s <;> decide
  | @name c others hstart hothers =>
    exact absurd (isNamePart_of_mem_cons hstart hothers _ hmem) (by decide)
  | number hn _ => exact absurd hmem (hn.notMem_chars (by decide) (by decide))
  | @string quote body content hquote _ =>
    rw [← List.cons_append, List.getLast?_concat, Option.some.injEq] at hlast
    subst hlast
    exact absurd hquote (by decide)

/-- What a text may begin with that is rendered behind a text `written`, last character first. -/
def OpensBehind (written text : List Char) : Prop :=
  written.head? = some '\n' ∨ ∀ c ∈ text.head?, c = ' ' ∨ c = '\n'

/-- A word that was rendered last ends before what is rendered next. -/
theorem Spells.endsBefore {word written text : List Char} {l : Lexeme} (h : Spells word l)
    (hopens : OpensBehind (word.reverse ++ written) text) : l.EndsBefore text := by
  intro c hc
  rcases hopens with hbreak | hhead
  · rw [List.head?_append, List.head?_reverse] at hbreak
    cases hlast : word.getLast? with
    | none => exact absurd (List.getLast?_eq_none_iff.mp hlast) h.ne_nil
    | some d =>
      rw [hlast, Option.some_or] at hbreak
      rw [h.eq_newLine (hlast.trans hbreak)]
      rfl
  · rcases hhead c hc with rfl | rfl
    · exact l.endsAt_space
    · exact l.endsAt_lineFeed

namespace Token

theorem gap_cases (written : List Char) (t : Token) :
    gap written t = [' '] ∨
      gap written t = [] ∧ (t.lexeme = .symbol .newLine ∨ written.head? = some '\n') := by
  unfold gap
  split
  · next h =>
    refine .inr ⟨rfl, h.imp_left ?_⟩
    exact Parser.lexeme_of_kind_symbol
  · exact .inl rfl

/-- **Tokens rendered behind a text add a spelled text.** -/
theorem exists_renderOnto_spells {tokens : List Token} (h : ∀ t ∈ tokens, t.lexeme.Lexable)
    (written : List Char) :
    ∃ text, renderOnto written tokens = text.reverse ++ written ∧
      SpellsAll text (tokens.map Token.lexeme) ∧ OpensBehind written text := by
  induction tokens generalizing written with
  | nil => exact ⟨[], rfl, .nil, .inr (by simp)⟩
  | cons t rest ih =>
    have hword : Spells t.render.toList t.lexeme := spells_render (h t List.mem_cons_self)
    obtain ⟨text, hrender, htext, hopens⟩ := ih (fun u hu => h u (List.mem_cons_of_mem _ hu))
      (t.render.toList.reverse ++ (gap written t ++ written))
    have hspells : SpellsAll (t.render.toList ++ text) ((t :: rest).map Token.lexeme) :=
      .word hword (hword.endsBefore hopens) htext
    -- The gap is a blank in front of the word, or the word need not be kept apart.
    rcases gap_cases written t with hgap | ⟨hgap, hbreak⟩
    · refine ⟨' ' :: (t.render.toList ++ text), ?_, .blank (by decide) hspells, .inr (by simp)⟩
      rw [renderOnto, hrender, hgap]
      simp
    · refine ⟨t.render.toList ++ text, ?_, hspells, ?_⟩
      · rw [renderOnto, hrender, hgap]
        simp
      · refine hbreak.symm.imp_right ?_
        intro hl c hc
        rw [render, hl] at hc
        exact .inr (Option.some.inj hc).symm

theorem renderAll_spells {tokens : List Token} (h : ∀ t ∈ tokens, t.lexeme.Lexable) :
    SpellsAll (renderAll tokens).toList (tokens.map Token.lexeme) := by
  cases tokens with
  | nil => exact .nil
  | cons t rest =>
    have hword : Spells t.render.toList t.lexeme := spells_render (h t List.mem_cons_self)
    obtain ⟨text, hrender, htext, hopens⟩ :=
      exists_renderOnto_spells (fun u hu => h u (List.mem_cons_of_mem _ hu)) t.render.toList.reverse
    rw [← List.append_nil t.render.toList.reverse] at hopens
    have hchars : (renderAll (t :: rest)).toList = t.render.toList ++ text := by
      rw [renderAll, hrender]
      simp
    rw [hchars]
    exact .word hword (hword.endsBefore hopens) htext

end Token

theorem tokenizesTo_renderAll {tokens : List Token} (h : ∀ t ∈ tokens, t.lexeme.Lexable) :
    TokenizesTo (Token.renderAll tokens) (tokens.map Token.lexeme) := by
  have hread := tokenize_of_spellsAll (Token.renderAll_spells h)
  rwa [String.ofList_toList] at hread

/-- The tokens of a source are lexable, but for the end marker behind them. -/
theorem lexable_of_tokenize {source : String} {read : List Token}
    (h : tokenize source = .ok read) :
    ∃ tokens, read = tokens ++ [.endOfFile] ∧ ∀ t ∈ tokens, t.lexeme.Lexable := by
  obtain ⟨tokens, last, hanswers, hlexable, hlast⟩ :=
    Window.answers_lexable (.ofText (Newline.normalizeChars source.toList))
  rw [tokenize_eq_ok_iff.mp h] at hanswers
  obtain ⟨front, back, rfl, hfront, hback⟩ := List.map_eq_append_iff.mp hanswers
  obtain ⟨t, rfl, ht⟩ := List.map_eq_singleton_iff.mp hback
  rcases hlast with rfl | ⟨e, rfl⟩
  · obtain rfl : t = .endOfFile := Except.ok.inj ht
    obtain rfl : front = tokens := (List.map_inj_right fun _ _ => Except.ok.inj).mp hfront
    exact ⟨front, rfl, hlexable⟩
  · exact nomatch ht

/-- **Lexing undoes rendering.** Lexable tokens are rendered to a source that is tokenized to
    their lexemes again, and the tokens of every source are lexable. So rendering what was read
    and reading it again changes no lexeme. -/
theorem render_tokenize_round_trip :
    (∀ tokens : List Token, (∀ t ∈ tokens, t.lexeme.Lexable) →
      TokenizesTo (Token.renderAll tokens) (tokens.map Token.lexeme)) ∧
    ∀ (source : String) (read : List Token), tokenize source = .ok read →
      ∃ tokens, read = tokens ++ [.endOfFile] ∧ (∀ t ∈ tokens, t.lexeme.Lexable) ∧
        TokenizesTo (Token.renderAll tokens) (tokens.map Token.lexeme) := by
  refine ⟨fun tokens h => tokenizesTo_renderAll h, ?_⟩
  intro source read h
  obtain ⟨tokens, hread, hlexable⟩ := lexable_of_tokenize h
  exact ⟨tokens, hread, hlexable, tokenizesTo_renderAll hlexable⟩

/-- Tokens that would run together without the spaces, and a string that needs escapes. -/
def neighbours : List Token :=
  [.symbol .bang ⟨0, 1⟩, .symbol .assign ⟨1, 2⟩, .symbol .assign ⟨2, 3⟩, .name "t" ⟨3, 4⟩,
    .truth true ⟨4, 8⟩, .number (.zero false) ⟨8, 9⟩, .symbol .newLine ⟨9, 10⟩,
    .string "'\\\"\r\n\x00" ⟨10, 18⟩]

theorem tokenizesTo_neighbours :
    (∀ t ∈ neighbours, t.lexeme.Lexable) ∧
      TokenizesTo (Token.renderAll neighbours) (neighbours.map Token.lexeme) := by
  have hletter : IsLetter 't' := .inr (.inl ⟨by decide, by decide⟩)
  have hname : IsIdentifier "t" := ⟨⟨'t', [], rfl, hletter, nofun⟩, by decide, by decide⟩
  have hlexable : ∀ t ∈ neighbours, t.lexeme.Lexable := by
    simp only [neighbours, List.forall_mem_cons]
    exact ⟨nofun, nofun, nofun, hname, trivial, ⟨_, rfl⟩, nofun, trivial, nofun⟩
  exact ⟨hlexable, render_tokenize_round_trip.1 neighbours hlexable⟩

end FormulaSyntax
