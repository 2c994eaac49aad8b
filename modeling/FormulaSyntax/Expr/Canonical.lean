import FormulaSyntax.Expr.Basic

/-!
# The canonical text of formulas

A binary operation is written in parentheses with spaces around the operator, a prefix operator
directly in front of its operand, a literal as a value: numbers positionally, strings in double
quotes. Items stand on lines of their own.

`charsBefore` writes an expression in front of a text that is there already. In this form the
work is in proportion to the text, however the expression leans, and the text of an expression
followed by anything is the function itself.
-/

set_option autoImplicit false

namespace FormulaSyntax

def Literal.canonical : Literal → String
  | text value => Text.quoted value
  | number value => value.plain
  | truth true => "true"
  | truth false => "false"

instance : ToString Literal := ⟨Literal.canonical⟩

namespace Expr

/-- Writes an expression in front of a text. -/
def charsBefore : Expr → List Char → List Char
  | ident id, rest => id.name.toList ++ rest
  | assign target value, rest =>
    target.name.toList ++ (' ' :: '=' :: ' ' :: value.charsBefore rest)
  | binary left op right, rest =>
    '(' :: left.charsBefore
      (' ' :: (op.spelling.toList ++ (' ' :: right.charsBefore (')' :: rest))))
  | prefixed op operand, rest => op.char :: operand.charsBefore rest
  | literal value, rest => value.canonical.toList ++ rest

def canonical (e : Expr) : String := String.ofList (e.charsBefore [])

instance : ToString Expr := ⟨canonical⟩

end Expr

namespace Formula

/-- Writes items on lines of their own, each behind a line feed. -/
def linesOf (items : List Expr) : List Char :=
  items.foldr (fun item rest => '\n' :: item.charsBefore rest) []

def chars (f : Formula) : List Char :=
  match f.items with
  | [] => []
  | first :: rest => first.charsBefore (linesOf rest)

def canonical (f : Formula) : String := String.ofList f.chars

instance : ToString Formula := ⟨canonical⟩

end Formula

end FormulaSyntax
