import FormulaSyntax.Expr.Canonical
import FormulaSyntax.Proofs.RoundTrip.Quoted
import FormulaSyntax.Proofs.RoundTrip.WellFormed

/-!
# The canonical text is parsed again

The canonical text of a well-formed formula spells the lexemes of `Formula.lexemes`, parentheses
included, with one reservation: the texts in it are those that quoted texts are read as. So it is
parsed to `Formula.reread`, the formula with these texts, and **that is the formula itself just
when no text in it has a character written by code point**.

`charsBefore` writes an expression in front of a rest, and the induction is on expressions in
front of every rest that spells something. What the rest begins with matters only in that the last
lexeme of the expression ends there (`Behind`); behind an expression there is always a space, a
closing parenthesis, a line feed or nothing.
-/

set_option autoImplicit false

namespace FormulaSyntax

/-! ## Formulas with the texts that are read -/

/-- A literal, with the text that its quoted text is read as. -/
def Literal.reread : Literal → Literal
  | text value => .text (Text.rereadText value)
  | number value => .number value
  | truth value => .truth value

namespace Expr

def texts : Expr → List String
  | ident _ => []
  | assign _ value => value.texts
  | binary left _ right => left.texts ++ right.texts
  | prefixed _ operand => operand.texts
  | literal (.text value) => [value]
  | literal (.number _) | literal (.truth _) => []

/-- An expression, with the texts that its canonical text is read with. -/
def reread : Expr → Expr
  | ident id => .ident id
  | assign target value => .assign target value.reread
  | binary left op right => .binary left.reread op right.reread
  | prefixed op operand => .prefixed op operand.reread
  | literal value => .literal value.reread

theorem isPhrase_reread {e : Expr} (h : e.IsPhrase) : e.reread.IsPhrase := by
  induction e with
  | ident id => exact h
  | assign => exact h.elim
  | binary left op right ihl ihr => exact ⟨ihl h.1, ihr h.2⟩
  | prefixed op operand ih => exact ih h
  | literal value =>
    cases value with
    | text => trivial
    | number | truth => exact h

theorem isItem_reread {e : Expr} (h : e.IsItem) : e.reread.IsItem := by
  cases e with
  | assign target value => exact ⟨h.1, isPhrase_reread h.2⟩
  | ident | binary | prefixed | literal => exact (isPhrase_reread h).isItem

theorem reread_eq_iff {e : Expr} :
    e.reread = e ↔ ∀ text ∈ e.texts, ∀ c ∈ text.toList, ¬ Text.ByCodePoint c := by
  induction e with
  | ident id => simp [reread, texts]
  | assign target value ih => simp [reread, texts, ih]
  | binary left op right ihl ihr =>
    rw [reread, texts, binary.injEq, ihl, ihr, List.forall_mem_append]
    simp
  | prefixed op operand ih => simp [reread, texts, ih]
  | literal value =>
    cases value with
    | text value => simp [reread, Literal.reread, texts, Text.rereadText_eq_iff]
    | number | truth => simp [reread, Literal.reread, texts]

end Expr

namespace Formula

def texts (f : Formula) : List String := f.items.flatMap Expr.texts

def reread (f : Formula) : Formula := ⟨f.items.map Expr.reread⟩

/-- Texts may be any, so a formula stays well-formed when they are changed. -/
theorem wellFormed_reread {f : Formula} (h : f.WellFormed) : f.reread.WellFormed := by
  intro e he
  obtain ⟨item, hitem, rfl⟩ := List.mem_map.mp he
  exact Expr.isItem_reread (h item hitem)

theorem map_reread_eq_iff {items : List Expr} :
    items.map Expr.reread = items ↔
      ∀ text ∈ items.flatMap Expr.texts, ∀ c ∈ text.toList, ¬ Text.ByCodePoint c := by
  induction items with
  | nil => simp
  | cons item items ih =>
    rw [List.map_cons, List.cons.injEq, Expr.reread_eq_iff, ih, List.flatMap_cons,
      List.forall_mem_append]

theorem reread_eq_iff {f : Formula} :
    f.reread = f ↔ ∀ text ∈ f.texts, ∀ c ∈ text.toList, ¬ Text.ByCodePoint c := by
  obtain ⟨items⟩ := f
  rw [reread, mk.injEq, map_reread_eq_iff, texts]

end Formula

/-! ## Canonical texts spell lexemes -/

/-- What may stand behind an expression. -/
def Behind (rest : List Char) : Prop := ∀ c ∈ rest.head?, c = ' ' ∨ c = ')' ∨ c = '\n'

/-- None of the characters that stand behind an expression goes on with a lexeme. -/
theorem Lexeme.endsBefore_of_behind {rest : List Char} (h : Behind rest) (l : Lexeme) :
    l.EndsBefore rest := by
  intro c hc
  rcases h c hc with rfl | rfl | rfl
  · exact l.endsAt_space
  · exact l.endsAt_of (by decide) (by decide) (by decide)
  · exact l.endsAt_lineFeed

theorem behind_space (text : List Char) : Behind (' ' :: text) := by
  intro c hc
  exact .inl (Option.some.inj hc).symm

theorem behind_paren (text : List Char) : Behind (')' :: text) := by
  intro c hc
  exact .inr (.inl (Option.some.inj hc).symm)

/-- A text is quoted, and its quoted text is the body of what it is read as. -/
theorem spells_literal {value : Literal} (h : value.lexeme.Lexable) :
    Spells value.canonical.toList value.reread.lexeme := by
  cases value with
  | text value => exact spells_quoted value
  | number value => exact spells_render h
  | truth value => cases value <;> exact spells_render h

theorem spells_binarySymbol (op : BinaryOp) : Spells op.spelling.toList (.symbol op.symbol) :=
  .symbol (by cases op <;> decide)

theorem spells_prefixSymbol (op : PrefixOp) : Spells [op.char] (.symbol op.symbol) := by
  cases op with
  | not =>
    show Spells Symbol.bang.spelling.toList _
    exact .symbol (by decide)
  | negate =>
    show Spells Symbol.minus.spelling.toList _
    exact .symbol (by decide)

theorem Spells.exists_cons_ne {word : List Char} {l : Lexeme} (h : Spells word l)
    (hl : ∀ s, l ≠ .symbol s) : ∃ c others, word = c :: others ∧ c ≠ '=' := by
  cases h with
  | symbol => exact absurd rfl (hl _)
  | @name c others hstart =>
    refine ⟨c, others, rfl, ?_⟩
    rintro rfl
    exact absurd hstart (by decide)
  | @number n hn =>
    obtain ⟨c, others, hcons, hdigit⟩ := hn.exists_chars_eq_cons
    refine ⟨c, others, hcons, ?_⟩
    rintro rfl
    exact absurd hdigit (by decide)
  | @string quote body content hquote =>
    refine ⟨quote, _, rfl, ?_⟩
    rintro rfl
    exact absurd hquote (by decide)

/-- No expression begins with an equals sign, so a prefix operator ends in front of each. -/
theorem head_charsBefore_ne {e : Expr} (h : e.IsPhrase) (rest : List Char) :
    ∀ c ∈ (e.charsBefore rest).head?, c ≠ '=' := by
  have hword : ∀ {word : List Char} {l : Lexeme}, Spells word l → (∀ s, l ≠ .symbol s) →
      ∀ c ∈ (word ++ rest).head?, c ≠ '=' := by
    intro word l hspells hl c hc
    obtain ⟨d, others, rfl, hd⟩ := hspells.exists_cons_ne hl
    obtain rfl : d = c := Option.some.inj hc
    exact hd
  cases e with
  | assign => exact h.elim
  | ident id => exact hword (spells_of_isIdentifier h) nofun
  | literal value =>
    refine hword (spells_literal h) ?_
    cases value <;> exact nofun
  | binary left op right =>
    intro c hc
    obtain rfl : '(' = c := Option.some.inj hc
    decide
  | prefixed op operand =>
    intro c hc
    obtain rfl : op.char = c := Option.some.inj hc
    cases op <;> decide

/-- **The canonical text of an expression spells its lexemes**, in front of every text that spells
    something and begins as it may. -/
theorem spellsAll_charsBefore {e : Expr} (h : e.IsPhrase) {rest : List Char} {ls : List Lexeme}
    (hrest : SpellsAll rest ls) (hbehind : Behind rest) :
    SpellsAll (e.charsBefore rest) (e.reread.lexemes ++ ls) := by
  induction e generalizing rest ls with
  | ident id =>
    exact .word (spells_of_isIdentifier h) (Lexeme.endsBefore_of_behind hbehind _) hrest
  | assign => exact h.elim
  | literal value =>
    exact .word (spells_literal h) (Lexeme.endsBefore_of_behind hbehind _) hrest
  | prefixed op operand ih =>
    have hends : (Lexeme.symbol op.symbol).EndsBefore (operand.charsBefore rest) := by
      intro c hc
      have hne := head_charsBefore_ne (e := operand) h rest c hc
      simp [Lexeme.endsAt, hne]
    exact .word (spells_prefixSymbol op) hends (ih h hrest hbehind)
  | binary left op right ihl ihr =>
    -- From the end to the front: each part stands in front of what is spelled by then.
    have hclose : SpellsAll (')' :: rest) (.symbol .rightParen :: ls) :=
      .word (.symbol (s := .rightParen) (by decide)) (Lexeme.endsBefore_of_behind hbehind _) hrest
    have hright := ihr h.2 hclose (behind_paren rest)
    have hop := SpellsAll.word (spells_binarySymbol op) (Lexeme.endsBefore_of_behind (behind_space _) _)
      (.blank (by decide) hright)
    have hleft := ihl h.1 (.blank (by decide) hop) (behind_space _)
    have hopen : SpellsAll ((Expr.binary left op right).charsBefore rest) _ :=
      .word (.symbol (s := .leftParen) (by decide)) (fun _ _ => rfl) hleft
    simpa [Expr.reread, Expr.lexemes] using hopen

theorem spellsAll_item {e : Expr} (h : e.IsItem) {rest : List Char} {ls : List Lexeme}
    (hrest : SpellsAll rest ls) (hbehind : Behind rest) :
    SpellsAll (e.charsBefore rest) (e.reread.lexemes ++ ls) := by
  cases e with
  | ident | binary | prefixed | literal => exact spellsAll_charsBefore h hrest hbehind
  | assign target value =>
    have hvalue := spellsAll_charsBefore h.2 hrest hbehind
    have hequals : SpellsAll ('=' :: ' ' :: value.charsBefore rest)
        (.symbol .assign :: (value.reread.lexemes ++ ls)) :=
      .word (.symbol (s := .assign) (by decide)) (Lexeme.endsBefore_of_behind (behind_space _) _)
        (.blank (by decide) hvalue)
    exact .word (spells_of_isIdentifier h.1) (Lexeme.endsBefore_of_behind (behind_space _) _)
      (.blank (by decide) hequals)

theorem behind_linesOf (items : List Expr) : Behind (Formula.linesOf items) := by
  intro c hc
  cases items with
  | nil => exact nomatch hc
  | cons item items => exact .inr (.inr (Option.some.inj hc).symm)

theorem spellsAll_linesOf {items : List Expr} (h : ∀ e ∈ items, e.IsItem) :
    SpellsAll (Formula.linesOf items) (Formula.lexemesOf (items.map Expr.reread)) := by
  induction items with
  | nil => exact .nil
  | cons item items ih =>
    have hrest := ih fun e he => h e (List.mem_cons_of_mem _ he)
    have hitem := spellsAll_item (h item List.mem_cons_self) hrest (behind_linesOf items)
    exact .word (.symbol (s := .newLine) (by decide)) (fun _ _ => rfl) hitem

/-- **The canonical text of a formula spells its lexemes**, with the texts that are read. -/
theorem spellsAll_chars {f : Formula} (h : f.WellFormed) :
    SpellsAll f.chars f.reread.lexemes := by
  obtain ⟨items⟩ := f
  cases items with
  | nil => exact .nil
  | cons first rest =>
    exact spellsAll_item (h first List.mem_cons_self)
      (spellsAll_linesOf fun e he => h e (List.mem_cons_of_mem _ he)) (behind_linesOf rest)

/-! ## The canonical text in a parser -/

theorem parse_canonical {f : Formula} (h : f.WellFormed) :
    parse f.canonical = .ok f.reread :=
  parse_of_spellsAll (spellsAll_chars h) (derivesFormula_lexemes (Formula.wellFormed_reread h))

/-- **The canonical text of a formula that was parsed is parsed again**, and to the same formula
    just when no text in it has a character that is written by code point. -/
theorem parse_canonical_of_parse {source : String} {f : Formula} (h : parse source = .ok f) :
    (∃ g, parse f.canonical = .ok g) ∧
      (parse f.canonical = .ok f ↔
        ∀ text ∈ f.texts, ∀ c ∈ text.toList, ¬ Text.ByCodePoint c) := by
  have hparse := parse_canonical (wellFormed_of_parse h)
  refine ⟨⟨f.reread, hparse⟩, ?_⟩
  rw [hparse, Except.ok.injEq, Formula.reread_eq_iff]

/-- An assignment, and a text with an accent, which is written by code point. -/
def accented : Formula :=
  ⟨[.assign ⟨"x"⟩ (.binary (.prefixed .negate (.ident ⟨"y"⟩)) .sub (.ident ⟨"z"⟩)),
    .literal (.text "e\u0301")]⟩

/-- The canonical text of the formula is parsed, but to another one. -/
theorem parse_canonical_accented :
    parse "x = -(y) - z\n'e\u0301'" = .ok accented ∧
      (∃ g, parse accented.canonical = .ok g) ∧ parse accented.canonical ≠ .ok accented := by
  have h : parse "x = -(y) - z\n'e\u0301'" = .ok accented := by decide +kernel
  obtain ⟨hparses, hsame⟩ := parse_canonical_of_parse h
  refine ⟨h, hparses, ?_⟩
  intro heq
  have haccent : Text.ByCodePoint '\u0301' := by decide +kernel
  exact hsame.mp heq "e\u0301" (by decide) '\u0301' (by decide) haccent

end FormulaSyntax
