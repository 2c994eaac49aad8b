/-!
# Line ends

Lines end in a line feed. Text from elsewhere may end them in a carriage return and a line feed;
`normalize` replaces each such pair by the line feed alone. It is one pass from left to right: a
carriage return that stood in front of a pair is left where it is, and then stands in front of
the line feed.

The pass keeps what it has written in an accumulator, last character first. The three equations
of `normalizeChars` say what it does without that accumulator.
-/

set_option autoImplicit false

namespace FormulaSyntax

namespace Newline

/-- Normalizes the rest of a text, given what is written already, last character first. -/
def normalizeOnto (written : List Char) : List Char → List Char
  | [] => written.reverse
  | '\r' :: '\n' :: rest => normalizeOnto ('\n' :: written) rest
  | c :: rest => normalizeOnto (c :: written) rest

/-- Replaces every pair of carriage return and line feed by a line feed. -/
def normalizeChars (text : List Char) : List Char := normalizeOnto [] text

def normalize (text : String) : String := String.ofList (normalizeChars text.toList)

theorem normalizeOnto_append (before written text : List Char) :
    normalizeOnto (written ++ before) text = before.reverse ++ normalizeOnto written text := by
  fun_induction normalizeOnto written text with
  | case1 written => simp [normalizeOnto]
  | case2 written rest ih => rw [normalizeOnto]; exact ih
  | case3 written c rest hne ih =>
    rw [normalizeOnto]
    · exact ih
    · exact hne

@[simp] theorem normalizeChars_nil : normalizeChars [] = [] := rfl

@[simp] theorem normalizeChars_pair (rest : List Char) :
    normalizeChars ('\r' :: '\n' :: rest) = '\n' :: normalizeChars rest :=
  normalizeOnto_append ['\n'] [] rest

theorem normalizeChars_cons {c : Char} {rest : List Char}
    (h : ∀ tail, c = '\r' → rest = '\n' :: tail → False) :
    normalizeChars (c :: rest) = c :: normalizeChars rest := by
  rw [normalizeChars, normalizeOnto]
  · exact normalizeOnto_append [c] [] rest
  · exact h

end Newline

end FormulaSyntax
