import FormulaSyntax.Formula.Step

/-!
# Reading an expression

`run` repeats the steps of `Step` until the expression is complete, or until it turns out that
there is none. It ends because every step that goes on takes one of the tokens upcoming, and for
the same reason an expression that is there takes at least one.
-/

set_option autoImplicit false

namespace FormulaSyntax

namespace Parser

/-- Repeats steps until the expression is complete. -/
def run (held : Stacks) (place : Place) (p : Parser) :
    EStateM.Result ParseError Parser (Option Expr) :=
  match _h : step held place p with
  | .ok (.next held' place') p' => run held' place' p'
  | .ok (.done result) p' => .ok result p'
  | .error e p' => .error e p'
termination_by p.upcoming.length
decreasing_by
  obtain ⟨t, ht⟩ := stepTakes ‹_›
  rw [ht]
  exact Nat.lt_succ_self _

/-- Reads an expression. There is none if the current token cannot begin one. -/
def expression : ParseM (Option Expr) := run .empty .operand

theorem length_upcoming_run_le {held : Stacks} {place : Place} {p q : Parser} {r : Option Expr}
    (h : run held place p = .ok r q) : q.upcoming.length ≤ p.upcoming.length := by
  fun_induction run held place p with
  | case1 held place p held' place' p' hs ih =>
    obtain ⟨t, ht⟩ := stepTakes hs
    rw [ht]
    exact Nat.le_succ_of_le (ih h)
  | case2 held place p result p' hs =>
    obtain ⟨-, rfl⟩ := EStateM.Result.ok.inj h
    exact Nat.le_of_eq (congrArg (fun p => p.upcoming.length) (stepTakes hs).1)
  | case3 => exact nomatch h

theorem length_upcoming_expression_lt {p q : Parser} {e : Expr}
    (h : expression p = .ok (some e) q) : q.upcoming.length < p.upcoming.length := by
  unfold expression run at h
  split at h
  · next held' place' p' hs =>
    obtain ⟨t, ht⟩ := stepTakes hs
    rw [ht]
    exact Nat.lt_succ_of_le (length_upcoming_run_le h)
  · next result p' hs =>
    obtain ⟨rfl, rfl⟩ := EStateM.Result.ok.inj h
    exact nomatch (stepTakes hs).2 rfl
  · exact nomatch h

end Parser

end FormulaSyntax
