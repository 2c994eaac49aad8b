import FormulaSyntax.Expr.Basic

/-!
# The layered grammar of formulas

The grammar that the two stacks stand for, written without stacks: four layers of binary
operators, each with left-recursive phrases `L op M` whose right operand `M` is one layer
tighter, and units at the bottom.

    formula    = NEWLINE* (item (NEWLINE+ item)*)? NEWLINE*
    item       = NAME '=' equality | equality
    equality   = equality ('==' | '!=') comparison | comparison
    comparison = comparison ('<' | '<=' | '>' | '>=') sum | sum
    sum        = sum ('+' | '-') product | product
    product    = product ('*' | '/') unit | unit
    unit       = NUMBER | STRING | TRUTH | NAME | '!' unit | '-' unit | '(' equality ')'

`Derives`, `DerivesItem`, `DerivesItems` and `DerivesFormula` are these rules, together with the
tree that a derivation builds. They speak of **lexemes**: where a token stands plays no part.

What the proofs about the stacks need of the grammar is at the end: a phrase of a layer is one
of every looser layer too, and no line break or end marker stands inside an item.
-/

set_option autoImplicit false

namespace FormulaSyntax

/-! ## Layers -/

/-- The sorts of phrases, loosest first. -/
inductive Layer where
  | equality | comparison | sum | product | unit
deriving DecidableEq

namespace Layer

/-- The operators whose phrases make up a layer. -/
def operators : Layer → List BinaryOp
  | equality => [.equal, .notEqual]
  | comparison => [.less, .lessEqual, .greater, .greaterEqual]
  | sum => [.add, .sub]
  | product => [.mul, .div]
  | unit => []

/-- The layer that right operands belong to. -/
def tighter : Layer → Layer
  | equality => comparison
  | comparison => sum
  | sum => product
  | product => unit
  | unit => unit

/-- The layer that the phrases of an operator belong to. -/
def ofOperator : BinaryOp → Layer
  | .equal | .notEqual => equality
  | .less | .lessEqual | .greater | .greaterEqual => comparison
  | .add | .sub => sum
  | .mul | .div => product

/-- How tightly the phrases of a layer bind. For the layer of an operator this is the
    operator's precedence, and units bind tighter than all operators. -/
def rank : Layer → Nat
  | equality => 3
  | comparison => 4
  | sum => 5
  | product => 6
  | unit => 7

theorem mem_operators_iff {l : Layer} {op : BinaryOp} : op ∈ l.operators ↔ l = ofOperator op := by
  cases l <;> cases op <;> decide

@[simp] theorem rank_ofOperator (op : BinaryOp) : (ofOperator op).rank = op.precedence := by
  cases op <;> rfl

/-- Right operands bind tighter than their operator by one layer, which makes operators group to
    the left. -/
theorem rank_tighter_ofOperator (op : BinaryOp) :
    (ofOperator op).tighter.rank = op.precedence + 1 := by
  cases op <;> rfl

theorem rank_le_rank_unit (l : Layer) : l.rank ≤ unit.rank := by
  cases l <;> decide

theorem rank_le_rank_tighter (l : Layer) : l.rank ≤ l.tighter.rank := by
  cases l <;> decide

/-- Between a layer and one that is no looser there is room for the next tighter one. -/
theorem eq_or_tighter_rank_le {l r : Layer} (h : l.rank ≤ r.rank) :
    l = r ∨ l.rank < l.tighter.rank ∧ l.tighter.rank ≤ r.rank := by
  revert h
  cases l <;> cases r <;> decide

theorem precedence_lt_rank_unit (op : BinaryOp) : op.precedence < unit.rank := by
  cases op <;> decide

end Layer

/-! ## Phrases, items, formulas -/

/-- A list of lexemes is a phrase of a layer and has a given tree. -/
inductive Derives : Layer → List Lexeme → Expr → Prop
  | number (value : Binary64) : Derives .unit [.number value] (.literal (.number value))
  | string (text : String) : Derives .unit [.string text] (.literal (.text text))
  | truth (value : Bool) : Derives .unit [.truth value] (.literal (.truth value))
  | name (text : String) : Derives .unit [.name text] (.ident ⟨text⟩)
  | prefixed (op : PrefixOp) {phrase : List Lexeme} {e : Expr} :
      Derives .unit phrase e → Derives .unit (.symbol op.symbol :: phrase) (.prefixed op e)
  /-- Parentheses leave no node. -/
  | group {phrase : List Lexeme} {e : Expr} :
      Derives .equality phrase e →
        Derives .unit (.symbol .leftParen :: (phrase ++ [.symbol .rightParen])) e
  /-- A phrase of the layer below stands for itself. -/
  | operand {l : Layer} {phrase : List Lexeme} {e : Expr} :
      Derives l.tighter phrase e → Derives l phrase e
  | binary {l : Layer} {op : BinaryOp} {first second : List Lexeme} {left right : Expr} :
      op ∈ l.operators → Derives l first left → Derives l.tighter second right →
        Derives l (first ++ .symbol op.symbol :: second) (.binary left op right)

inductive DerivesItem : List Lexeme → Expr → Prop
  | expression {phrase : List Lexeme} {e : Expr} :
      Derives .equality phrase e → DerivesItem phrase e
  | assignment (target : String) {phrase : List Lexeme} {e : Expr} :
      Derives .equality phrase e →
        DerivesItem (.name target :: .symbol .assign :: phrase) (.assign ⟨target⟩ e)

/-- A run of line breaks. -/
def breaks (n : Nat) : List Lexeme := List.replicate n (.symbol .newLine)

/-- One item or more, with at least one line break between neighbours. -/
inductive DerivesItems : List Lexeme → List Expr → Prop
  | last {phrase : List Lexeme} {e : Expr} : DerivesItem phrase e → DerivesItems phrase [e]
  | more (n : Nat) {phrase others : List Lexeme} {e : Expr} {es : List Expr} :
      DerivesItem phrase e → DerivesItems others es →
        DerivesItems (phrase ++ (breaks (n + 1) ++ others)) (e :: es)

inductive DerivesFormula : List Lexeme → Formula → Prop
  | blank (n : Nat) : DerivesFormula (breaks n) ⟨[]⟩
  | items (before after : Nat) {phrases : List Lexeme} {es : List Expr} :
      DerivesItems phrases es →
        DerivesFormula (breaks before ++ (phrases ++ breaks after)) ⟨es⟩

/-! ## Looser layers -/

/-- **A phrase of a layer is one of every looser layer**, by as many steps as there are layers in
between. -/
theorem Derives.loosen {l r : Layer} {phrase : List Lexeme} {e : Expr} (h : Derives r phrase e)
    (hle : l.rank ≤ r.rank) : Derives l phrase e := by
  rcases Layer.eq_or_tighter_rank_le hle with rfl | ⟨hlt, hle'⟩
  · exact h
  · exact .operand (h.loosen hle')
termination_by r.rank - l.rank

/-- The phrase of an operator with its operands, in the operator's own layer. -/
theorem Derives.combine {op : BinaryOp} {first second : List Lexeme} {left right : Expr}
    (hl : Derives (.ofOperator op) first left)
    (hr : Derives (Layer.ofOperator op).tighter second right) :
    Derives (.ofOperator op) (first ++ .symbol op.symbol :: second) (.binary left op right) :=
  .binary (Layer.mem_operators_iff.mpr rfl) hl hr

/-! ## What stands inside an item -/

/-- The lexemes that items consist of: all but line breaks and the end marker. -/
def Lexeme.IsInner (l : Lexeme) : Prop := l ≠ .symbol .newLine ∧ l ≠ .symbol .endOfFile

/-- The lexemes that phrases consist of. The equals sign of an assignment is none of them. -/
def Lexeme.InPhrase (l : Lexeme) : Prop := l.IsInner ∧ l ≠ .symbol .assign

theorem inPhrase_binary (op : BinaryOp) : (Lexeme.symbol op.symbol).InPhrase := by
  cases op <;> exact ⟨⟨by decide, by decide⟩, by decide⟩

theorem inPhrase_prefix (op : PrefixOp) : (Lexeme.symbol op.symbol).InPhrase := by
  cases op <;> exact ⟨⟨by decide, by decide⟩, by decide⟩

/-- A phrase holds no line break, no end marker and no equals sign of an assignment, so it ends in
    front of each. -/
theorem Derives.inPhrase {l : Layer} {phrase : List Lexeme} {e : Expr} (h : Derives l phrase e) :
    ∀ t ∈ phrase, t.InPhrase := by
  induction h with
  | number | string | truth | name =>
    intro t ht
    rw [List.mem_singleton.mp ht]
    exact ⟨⟨nofun, nofun⟩, nofun⟩
  | prefixed op _ ih =>
    intro t ht
    rcases List.mem_cons.mp ht with rfl | ht
    · exact inPhrase_prefix op
    · exact ih t ht
  | group _ ih =>
    intro t ht
    rcases List.mem_cons.mp ht with rfl | ht
    · exact ⟨⟨by decide, by decide⟩, by decide⟩
    · rcases List.mem_append.mp ht with ht | ht
      · exact ih t ht
      · rw [List.mem_singleton.mp ht]
        exact ⟨⟨by decide, by decide⟩, by decide⟩
  | operand _ ih => exact ih
  | @binary _ op _ _ _ _ _ _ _ ihl ihr =>
    intro t ht
    rcases List.mem_append.mp ht with ht | ht
    · exact ihl t ht
    · rcases List.mem_cons.mp ht with rfl | ht
      · exact inPhrase_binary op
      · exact ihr t ht

theorem Derives.ne_nil {l : Layer} {phrase : List Lexeme} {e : Expr} (h : Derives l phrase e) :
    phrase ≠ [] := by
  induction h with
  | operand _ ih => exact ih
  | number | string | truth | name | prefixed | group | binary => simp

theorem DerivesItem.isInner {phrase : List Lexeme} {e : Expr} (h : DerivesItem phrase e) :
    ∀ t ∈ phrase, t.IsInner := by
  cases h with
  | expression h => exact fun t ht => (h.inPhrase t ht).1
  | assignment target h =>
    intro t ht
    rcases List.mem_cons.mp ht with rfl | ht
    · exact ⟨nofun, nofun⟩
    · rcases List.mem_cons.mp ht with rfl | ht
      · exact ⟨by decide, by decide⟩
      · exact (h.inPhrase t ht).1

theorem DerivesItem.ne_nil {phrase : List Lexeme} {e : Expr} (h : DerivesItem phrase e) :
    phrase ≠ [] := by
  cases h with
  | expression h => exact h.ne_nil
  | assignment => simp

/-- An item begins with a lexeme that no line break is, and no end marker. -/
theorem DerivesItem.exists_cons {phrase : List Lexeme} {e : Expr} (h : DerivesItem phrase e) :
    ∃ t rest, phrase = t :: rest ∧ t.IsInner := by
  cases phrase with
  | nil => exact absurd rfl h.ne_nil
  | cons t rest => exact ⟨t, rest, rfl, h.isInner t List.mem_cons_self⟩

theorem DerivesItems.exists_cons {phrases : List Lexeme} {es : List Expr}
    (h : DerivesItems phrases es) : ∃ t rest, phrases = t :: rest ∧ t.IsInner := by
  cases h with
  | last h => exact h.exists_cons
  | more n h _ =>
    obtain ⟨t, rest, rfl, ht⟩ := h.exists_cons
    exact ⟨t, rest ++ (breaks (n + 1) ++ _), rfl, ht⟩

theorem ne_endOfFile_of_mem_breaks {n : Nat} {t : Lexeme} (h : t ∈ breaks n) :
    t ≠ .symbol .endOfFile := by
  rw [List.eq_of_mem_replicate h]
  decide

theorem DerivesItems.ne_endOfFile {phrases : List Lexeme} {es : List Expr}
    (h : DerivesItems phrases es) : ∀ t ∈ phrases, t ≠ .symbol .endOfFile := by
  induction h with
  | last h => exact fun t ht => (h.isInner t ht).2
  | more n h _ ih =>
    intro t ht
    rcases List.mem_append.mp ht with ht | ht
    · exact (h.isInner t ht).2
    · rcases List.mem_append.mp ht with ht | ht
      · exact ne_endOfFile_of_mem_breaks ht
      · exact ih t ht

theorem DerivesFormula.ne_endOfFile {ls : List Lexeme} {f : Formula} (h : DerivesFormula ls f) :
    ∀ t ∈ ls, t ≠ .symbol .endOfFile := by
  cases h with
  | blank n => exact fun t ht => ne_endOfFile_of_mem_breaks ht
  | items before after h =>
    intro t ht
    rcases List.mem_append.mp ht with ht | ht
    · exact ne_endOfFile_of_mem_breaks ht
    · rcases List.mem_append.mp ht with ht | ht
      · exact h.ne_endOfFile t ht
      · exact ne_endOfFile_of_mem_breaks ht

/-- **A formula with one more item in front**, if the formula does not begin with an item itself:
the line break that keeps the two items apart is then among its own. -/
theorem DerivesFormula.prepend {phrase ls : List Lexeme} {e : Expr} {es : List Expr} (n : Nat)
    (h : DerivesItem phrase e) (hrest : DerivesFormula ls ⟨es⟩)
    (hhead : ∀ t rest, ls = t :: rest → ¬ t.IsInner) :
    DerivesFormula (breaks n ++ (phrase ++ ls)) ⟨e :: es⟩ := by
  cases hrest with
  | blank m => exact .items n m (.last h)
  | @items before after phrases _ hs =>
    cases before with
    | zero =>
      obtain ⟨t, rest, rfl, ht⟩ := hs.exists_cons
      exact absurd ht (hhead t (rest ++ breaks after) rfl)
    | succ m =>
      have hassoc : phrase ++ (breaks (m + 1) ++ (phrases ++ breaks after))
          = (phrase ++ (breaks (m + 1) ++ phrases)) ++ breaks after := by
        simp only [List.append_assoc]
      rw [hassoc]
      exact .items n after (.more m h hs)

end FormulaSyntax
