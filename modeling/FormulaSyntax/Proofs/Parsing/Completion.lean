import FormulaSyntax.Proofs.Parsing.Steps

/-!
# What has been read can be completed

The stacks of an expression never hold a dead end. Whatever is awaited can still come, and so the
lexemes read so far begin a phrase at any time, at both places where a step can stand.
-/

set_option autoImplicit false

namespace FormulaSyntax

/-- Lexemes that some further ones make a phrase of. -/
def BeginsPhrase (read : List Lexeme) : Prop :=
  ∃ others e, Derives .equality (read ++ others) e

theorem beginsPhrase_of_append {read others : List Lexeme} (h : BeginsPhrase (read ++ others)) :
    BeginsPhrase read := by
  obtain ⟨more, e, hd⟩ := h
  rw [List.append_assoc] at hd
  exact ⟨others ++ more, e, hd⟩

/-- **What is awaited can be completed**: behind any phrase of the layer that is due the pending
    operators have their operands, and the open parentheses can be closed. -/
theorem Awaits.beginsPhrase {l : Layer} {operands : List Expr} {pending : List Pending}
    {read : List Lexeme} (h : Awaits l operands pending read) :
    ∀ {phrase : List Lexeme} {e : Expr}, Derives l phrase e → BeginsPhrase (read ++ phrase) := by
  induction h with
  | start =>
    intro phrase e hd
    exact ⟨[], e, by rwa [List.nil_append, List.append_nil]⟩
  | @group l _ _ _ span _ ih =>
    intro phrase e hd
    obtain ⟨others, whole, hwhole⟩ := ih ((Derives.group hd).loosen l.rank_le_rank_unit)
    refine ⟨.symbol .rightParen :: others, whole, ?_⟩
    simpa only [List.append_assoc, List.cons_append, List.nil_append] using hwhole
  | @prefixed l _ _ _ op span _ ih =>
    intro phrase e hd
    obtain ⟨others, whole, hwhole⟩ := ih ((Derives.prefixed op hd).loosen l.rank_le_rank_unit)
    refine ⟨others, whole, ?_⟩
    simpa only [List.append_assoc, List.cons_append, List.nil_append] using hwhole
  | @binary l _ _ _ _ _ op span _ hle hleft ih =>
    intro phrase e hd
    rw [← Layer.rank_ofOperator] at hle
    obtain ⟨others, whole, hwhole⟩ := ih ((hleft.combine hd).loosen hle)
    refine ⟨others, whole, ?_⟩
    simpa only [List.append_assoc, List.cons_append, List.nil_append] using hwhole

theorem Opens.beginsPhrase {read : List Lexeme} {held : Stacks} (h : Opens read held) :
    BeginsPhrase read := by
  cases h with
  | @intro l _ _ h =>
    have htruth : Derives l [.truth true] (.literal (.truth true)) :=
      (Derives.truth true).loosen l.rank_le_rank_unit
    exact beginsPhrase_of_append (h.beginsPhrase htruth)

theorem Holds.beginsPhrase {r : Layer} {read : List Lexeme} {held : Stacks}
    (h : Holds r read held) : BeginsPhrase read := by
  cases h with
  | intro h hle hd => exact h.beginsPhrase (hd.loosen hle)

theorem Parser.Stands.beginsPhrase {read : List Lexeme} {held : Stacks} {place : Place}
    (h : Stands read held place) : BeginsPhrase read := by
  cases place with
  | operand => exact Opens.beginsPhrase h
  | operator => exact Holds.beginsPhrase h

end FormulaSyntax
