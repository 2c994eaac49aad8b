import FormulaSyntax.Proofs.Parsing.Formulas
import FormulaSyntax.Proofs.Scanning.Lexable

/-!
# The formulas that sources are parsed to

A tree can be built by hand in ways that no source is parsed to: with an assignment below the
root of an item, with a name that is no name, with a negative number. `Formula.WellFormed` is what
is left. There are two results.

* `wellFormed_of_parse`: a formula that a source is parsed to is well formed. Its derivation uses
  lexemes that were read, and those are lexable.
* `derivesFormula_lexemes`: a well-formed formula derives from `Formula.lexemes`, the lexemes that
  write every binary operation in parentheses.

Between lexemes and sources stands `parse_of_spellsAll`: a source that spells the lexemes of a
formula is parsed to that formula.
-/

set_option autoImplicit false

namespace FormulaSyntax

/-! ## Well-formed formulas -/

/-- The lexeme that a literal is written as. -/
def Literal.lexeme : Literal → Lexeme
  | text value => .string value
  | number value => .number value
  | truth value => .truth value

namespace Expr

/-- An expression without assignments whose names and literals can be written. -/
def IsPhrase : Expr → Prop
  | ident id => IsIdentifier id.name
  | assign _ _ => False
  | binary left _ right => left.IsPhrase ∧ right.IsPhrase
  | prefixed _ operand => operand.IsPhrase
  | literal value => value.lexeme.Lexable

def IsItem : Expr → Prop
  | assign target value => IsIdentifier target.name ∧ value.IsPhrase
  | e => e.IsPhrase

/-- The lexemes of an expression, with parentheses around every binary operation. -/
def lexemes : Expr → List Lexeme
  | ident id => [.name id.name]
  | assign target value => .name target.name :: .symbol .assign :: value.lexemes
  | binary left op right =>
    .symbol .leftParen :: ((left.lexemes ++ .symbol op.symbol :: right.lexemes)
      ++ [.symbol .rightParen])
  | prefixed op operand => .symbol op.symbol :: operand.lexemes
  | literal value => [value.lexeme]

theorem IsPhrase.isItem {e : Expr} (h : e.IsPhrase) : e.IsItem := by
  cases e with
  | assign => exact h.elim
  | ident | binary | prefixed | literal => exact h

end Expr

namespace Formula

/-- Every item is one that can be written. -/
def WellFormed (f : Formula) : Prop := ∀ e ∈ f.items, e.IsItem

/-- The lexemes of items, each behind a line break. -/
def lexemesOf (items : List Expr) : List Lexeme :=
  items.flatMap fun item => .symbol .newLine :: item.lexemes

/-- The lexemes of a formula, with its items on lines of their own. -/
def lexemes (f : Formula) : List Lexeme :=
  match f.items with
  | [] => []
  | first :: rest => first.lexemes ++ lexemesOf rest

end Formula

/-! ## What derives from lexable lexemes -/

theorem Derives.isPhrase {l : Layer} {phrase : List Lexeme} {e : Expr} (h : Derives l phrase e) :
    (∀ t ∈ phrase, t.Lexable) → e.IsPhrase := by
  induction h with
  | number | string | truth | name =>
    intro hlexable
    exact hlexable _ List.mem_cons_self
  | prefixed op _ ih =>
    intro hlexable
    exact ih fun t ht => hlexable t (by simp [ht])
  | group _ ih =>
    intro hlexable
    exact ih fun t ht => hlexable t (by simp [ht])
  | operand _ ih => exact ih
  | binary _ _ _ ihl ihr =>
    intro hlexable
    exact ⟨ihl fun t ht => hlexable t (by simp [ht]), ihr fun t ht => hlexable t (by simp [ht])⟩

theorem DerivesItem.isItem {phrase : List Lexeme} {e : Expr} (h : DerivesItem phrase e)
    (hlexable : ∀ t ∈ phrase, t.Lexable) : e.IsItem := by
  cases h with
  | expression h => exact (h.isPhrase hlexable).isItem
  | assignment target h =>
    exact ⟨hlexable (.name target) (by simp), h.isPhrase fun t ht => hlexable t (by simp [ht])⟩

theorem DerivesItems.isItem {phrases : List Lexeme} {es : List Expr}
    (h : DerivesItems phrases es) : (∀ t ∈ phrases, t.Lexable) → ∀ e ∈ es, e.IsItem := by
  induction h with
  | last h =>
    intro hlexable e he
    rw [List.mem_singleton.mp he]
    exact h.isItem hlexable
  | more n h _ ih =>
    intro hlexable e he
    rcases List.mem_cons.mp he with rfl | he
    · exact h.isItem fun t ht => hlexable t (by simp [ht])
    · exact ih (fun t ht => hlexable t (by simp [ht])) e he

theorem DerivesFormula.wellFormed {ls : List Lexeme} {f : Formula} (h : DerivesFormula ls f)
    (hlexable : ∀ t ∈ ls, t.Lexable) : f.WellFormed := by
  cases h with
  | blank => exact nofun
  | items before after h => exact h.isItem fun t ht => hlexable t (by simp [ht])

/-! ## What well-formed formulas derive from -/

/-- A phrase derives from its lexemes. The parentheses make a unit of every operation, and a unit
    is a phrase of every layer. -/
theorem derives_lexemes {e : Expr} (h : e.IsPhrase) : Derives .unit e.lexemes e := by
  induction e with
  | ident id => exact .name id.name
  | assign => exact h.elim
  | prefixed op operand ih => exact .prefixed op (ih h)
  | literal value =>
    cases value with
    | text value => exact .string value
    | number value => exact .number value
    | truth value => exact .truth value
  | binary left op right ihl ihr =>
    have hl := (ihl h.1).loosen (Layer.rank_le_rank_unit (.ofOperator op))
    have hr := (ihr h.2).loosen (Layer.rank_le_rank_unit (Layer.ofOperator op).tighter)
    refine .group ((Derives.combine hl hr).loosen ?_)
    cases op <;> decide

theorem derivesItem_lexemes {e : Expr} (h : e.IsItem) : DerivesItem e.lexemes e := by
  have hloosen : ∀ {e : Expr}, e.IsPhrase → Derives .equality e.lexemes e := fun h =>
    (derives_lexemes h).loosen (Layer.rank_le_rank_unit .equality)
  cases e with
  | assign target value => exact .assignment target.name (hloosen h.2)
  | ident | binary | prefixed | literal => exact .expression (hloosen h)

theorem derivesItems_lexemes {first : Expr} {rest : List Expr}
    (h : ∀ e ∈ first :: rest, e.IsItem) :
    DerivesItems (first.lexemes ++ Formula.lexemesOf rest) (first :: rest) := by
  induction rest generalizing first with
  | nil =>
    rw [Formula.lexemesOf, List.flatMap_nil, List.append_nil]
    exact .last (derivesItem_lexemes (h first List.mem_cons_self))
  | cons second rest ih =>
    have hfirst := derivesItem_lexemes (h first List.mem_cons_self)
    have hrest := ih fun e he => h e (List.mem_cons_of_mem _ he)
    exact .more 0 hfirst hrest

/-- **A well-formed formula derives from its lexemes.** -/
theorem derivesFormula_lexemes {f : Formula} (h : f.WellFormed) : DerivesFormula f.lexemes f := by
  obtain ⟨items⟩ := f
  cases items with
  | nil => exact .blank 0
  | cons first rest =>
    have hitems := DerivesFormula.items 0 0 (derivesItems_lexemes h)
    simpa [breaks, Formula.lexemes] using hitems

/-! ## Sources -/

namespace Parser

theorem mem_of_mem_tokensUpTo {answers : List (Except LexError Token)} {t : Token}
    (h : t ∈ tokensUpTo (answers.map some)) : .ok t ∈ answers := by
  induction answers with
  | nil => exact nomatch h
  | cons answer rest ih =>
    cases answer with
    | error e => exact nomatch h
    | ok u =>
      rw [List.map_cons, tokensUpTo] at h
      rcases List.mem_cons.mp h with rfl | h
      · exact List.mem_cons_self
      · exact List.mem_cons_of_mem _ (ih h)

/-- What a fresh parser is primed to read is among the answers of its feed. -/
theorem mem_of_mem_upcoming {answers : List (Except LexError Token)} {p : Parser}
    (h : prime (ofFeed (Feed.ofList answers)) = .ok () p) {t : Token} (ht : t ∈ p.upcoming) :
    .ok t ∈ answers := by
  match answers, h with
  | [], h =>
    obtain ⟨-, rfl⟩ := EStateM.Result.ok.inj h
    exact nomatch ht
  | [.ok u], h =>
    obtain ⟨-, rfl⟩ := EStateM.Result.ok.inj h
    rw [List.mem_singleton.mp ht]
    exact List.mem_cons_self
  | .ok u :: .ok v :: rest, h =>
    obtain ⟨-, rfl⟩ := EStateM.Result.ok.inj h
    rcases List.mem_cons.mp ht with rfl | ht
    · exact List.mem_cons_self
    · rcases List.mem_cons.mp ht with rfl | ht
      · exact List.mem_cons_of_mem _ List.mem_cons_self
      · exact List.mem_cons_of_mem _ (List.mem_cons_of_mem _ (mem_of_mem_tokensUpTo ht))
  | .ok u :: .error e :: rest, h => exact nomatch h
  | .error e :: rest, h => exact nomatch h

/-- A formula that a parse returns derives from tokens among the answers of the feed, also if
    there are errors among these. -/
theorem derives_of_parse_ofFeed {answers : List (Except LexError Token)} {f : Formula}
    (h : (ofFeed (Feed.ofList answers)).parse.result = .ok f) :
    ∃ taken : List Token, DerivesFormula (taken.map Token.lexeme) f ∧
      ∀ t ∈ taken, .ok t ∈ answers := by
  cases hp : prime (ofFeed (Feed.ofList answers)) with
  | error e p =>
    simp only [parse, hp] at h
    cases h
  | ok u p =>
    have hparsed := itemsFrom_parsed p [] []
    simp only [parse, hp] at h
    simp only [Parsed, h] at hparsed
    obtain ⟨-, es, hes, taken, hup, hderives⟩ := hparsed
    obtain rfl : f = ⟨es⟩ := by
      cases f
      simpa using hes
    refine ⟨taken, hderives, ?_⟩
    intro t ht
    exact mem_of_mem_upcoming hp (by rw [hup]; exact List.mem_append_left _ ht)

end Parser

/-- **A formula that a source is parsed to is well formed.** -/
theorem wellFormed_of_parse {source : String} {f : Formula} (h : parse source = .ok f) :
    f.WellFormed := by
  obtain ⟨taken, hderives, hmem⟩ := Parser.derives_of_parse_ofFeed h
  obtain ⟨tokens, last, hanswers, hlexable, hlast⟩ :=
    Window.answers_lexable (.ofText (Newline.normalizeChars source.toList))
  have hreadings : (readingsOf source).map Reading.answer = tokens.map .ok ++ [last] := hanswers
  apply hderives.wellFormed
  intro l hl
  obtain ⟨t, ht, rfl⟩ := List.mem_map.mp hl
  have hanswer := hmem t ht
  rw [hreadings] at hanswer
  rcases List.mem_append.mp hanswer with hanswer | hanswer
  · obtain ⟨u, hu, heq⟩ := List.mem_map.mp hanswer
    obtain rfl := Except.ok.inj heq
    exact hlexable u hu
  · -- The end marker is no part of a formula, and an error is no token.
    rw [List.mem_singleton] at hanswer
    rcases hlast with rfl | ⟨e, rfl⟩
    · obtain rfl := Except.ok.inj hanswer
      exact absurd rfl (hderives.ne_endOfFile _ hl)
    · exact nomatch hanswer

/-- **A source that spells the lexemes of a formula is parsed to it.** -/
theorem parse_of_spellsAll {text : List Char} {ls : List Lexeme} {f : Formula}
    (h : SpellsAll text ls) (hderives : DerivesFormula ls f) :
    parse (String.ofList text) = .ok f := by
  obtain ⟨tokens, hanswers, hls⟩ := Window.answers_of_spellsAll h (Window.text_ofText text)
  have hreadings : (readingsOf (String.ofList text)).map Reading.answer
      = (tokens ++ [Token.endOfFile]).map .ok := by
    rw [readingsOf, String.toList_ofList, h.normalizeChars_eq]
    exact hanswers
  rw [parse, Parser.ofReadings, hreadings]
  exact Parser.parse_of_derives rfl (hls ▸ hderives)

end FormulaSyntax
