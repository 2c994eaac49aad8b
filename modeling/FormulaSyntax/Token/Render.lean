import FormulaSyntax.Token.Basic

/-!
# Rendering a list of tokens

Tokens are joined by single spaces, so that neighbours cannot run together, and a line of the
result is a line of the tokens: neither a line break itself nor what follows one has a space in
front of it.

The text grows at its end, so it is kept with the last character first while it is built.
-/

set_option autoImplicit false

namespace FormulaSyntax

namespace Token

/-- What goes between the text written so far, last character first, and the next token. -/
def gap (written : List Char) (t : Token) : List Char :=
  if t.kind = .symbol .newLine ∨ written.head? = some '\n' then [] else [' ']

/-- Renders tokens behind a text that is written already; both are last character first. -/
def renderOnto (written : List Char) : List Token → List Char
  | [] => written
  | t :: rest => renderOnto (t.render.toList.reverse ++ (gap written t ++ written)) rest

/-- The text of a list of tokens. Nothing goes in front of the first one. -/
def renderAll : List Token → String
  | [] => ""
  | t :: rest => String.ofList (renderOnto t.render.toList.reverse rest).reverse

end Token

end FormulaSyntax
