import FormulaSyntax.Proofs.RoundTrip.Tokens
import FormulaSyntax.Proofs.RoundTrip.WellFormed

/-!
# The formulas that have a source

A formula that a source is parsed to is well formed (`wellFormed_of_parse`). Here is the other
half: **every well-formed formula has a source**, whatever its shape and its texts.

The canonical text is not such a source, because some texts come back changed from it. But the
lexemes of a well-formed formula can all be spelled, so they can be rendered as tokens, and a
rendered string is read as just the text that it was rendered from.
-/

set_option autoImplicit false

namespace FormulaSyntax

theorem Expr.IsPhrase.lexable {e : Expr} (h : e.IsPhrase) : ∀ l ∈ e.lexemes, l.Lexable := by
  induction e with
  | ident id =>
    intro l hl
    rw [List.mem_singleton.mp hl]
    exact h
  | assign => exact h.elim
  | literal value =>
    intro l hl
    rw [List.mem_singleton.mp hl]
    exact h
  | prefixed op operand ih =>
    intro l hl
    rcases List.mem_cons.mp hl with rfl | hl
    · cases op <;> exact nofun
    · exact ih h l hl
  | binary left op right ihl ihr =>
    have hop : (Lexeme.symbol op.symbol).Lexable := by cases op <;> exact nofun
    have hparens : (Lexeme.symbol .leftParen).Lexable ∧ (Lexeme.symbol .rightParen).Lexable :=
      ⟨nofun, nofun⟩
    simpa [Expr.lexemes, or_imp, forall_and, hop, hparens] using ⟨ihl h.1, ihr h.2⟩

theorem Expr.IsItem.lexable {e : Expr} (h : e.IsItem) : ∀ l ∈ e.lexemes, l.Lexable := by
  cases e with
  | ident | binary | prefixed | literal => exact Expr.IsPhrase.lexable h
  | assign target value =>
    intro l hl
    rcases List.mem_cons.mp hl with rfl | hl
    · exact h.1
    · rcases List.mem_cons.mp hl with rfl | hl
      · exact nofun
      · exact h.2.lexable l hl

theorem Formula.lexable_lexemesOf {items : List Expr} (h : ∀ e ∈ items, e.IsItem) :
    ∀ l ∈ lexemesOf items, l.Lexable := by
  intro l hl
  obtain ⟨item, hitem, hl⟩ := List.mem_flatMap.mp hl
  rcases List.mem_cons.mp hl with rfl | hl
  · exact nofun
  · exact (h item hitem).lexable l hl

theorem Formula.WellFormed.lexable {f : Formula} (h : f.WellFormed) :
    ∀ l ∈ f.lexemes, l.Lexable := by
  obtain ⟨items⟩ := f
  cases items with
  | nil => exact nofun
  | cons first rest =>
    intro l hl
    rcases List.mem_append.mp hl with hl | hl
    · exact (h first List.mem_cons_self).lexable l hl
    · exact lexable_lexemesOf (fun e he => h e (List.mem_cons_of_mem _ he)) l hl

/-- The lexemes of a formula as tokens. Where they stand does not matter to rendering. -/
def Formula.tokens (f : Formula) : List Token := f.lexemes.map fun l => ⟨l, ⟨0, 0⟩⟩

theorem Formula.lexeme_tokens (f : Formula) : f.tokens.map Token.lexeme = f.lexemes := by
  simp [tokens, Function.comp_def]

/-- **The rendered lexemes of a well-formed formula are parsed to it.** -/
theorem parse_renderAll {f : Formula} (h : f.WellFormed) :
    parse (Token.renderAll f.tokens) = .ok f := by
  have hlexable : ∀ t ∈ f.tokens, t.lexeme.Lexable := by
    intro t ht
    obtain ⟨l, hl, rfl⟩ := List.mem_map.mp ht
    exact h.lexable l hl
  have hspells := Token.renderAll_spells hlexable
  rw [f.lexeme_tokens] at hspells
  have hparse := parse_of_spellsAll hspells (derivesFormula_lexemes h)
  rwa [String.ofList_toList] at hparse

/-- **Exactly the well-formed formulas have a source.** -/
theorem exists_parse_iff_wellFormed (f : Formula) :
    (∃ source, parse source = .ok f) ↔ f.WellFormed := by
  constructor
  · rintro ⟨source, h⟩
    exact wellFormed_of_parse h
  · exact fun h => ⟨Token.renderAll f.tokens, parse_renderAll h⟩

end FormulaSyntax
