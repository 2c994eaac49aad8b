/-!
# Escapes in string literals

In a string literal a backslash and one of eight characters stand for a character that is hard
to write: the backslash and the two quotes for themselves, `n f t r 0` for line feed, form feed,
tab, carriage return and the zero character. A backslash in front of any other character is no
escape.

`encode?` is the other direction, and the two are inverse to each other. That is what lets a
rendered token be read again.
-/

set_option autoImplicit false

namespace FormulaSyntax

namespace Escape

/-- The character that a backslash and the given letter stand for. -/
def decode? : Char → Option Char
  | 'n' => some '\n'
  | 'f' => some '\x0c'
  | 't' => some '\t'
  | 'r' => some '\r'
  | '\\' => some '\\'
  | '0' => some '\x00'
  | '\'' => some '\''
  | '"' => some '"'
  | _ => none

/-- The letter that stands for a character behind a backslash. -/
def encode? : Char → Option Char
  | '\n' => some 'n'
  | '\x0c' => some 'f'
  | '\t' => some 't'
  | '\r' => some 'r'
  | '\\' => some '\\'
  | '\x00' => some '0'
  | '\'' => some '\''
  | '"' => some '"'
  | _ => none

/-- What the pair of a backslash and a character means: the character it stands for, or the pair
    itself. -/
def meaning (letter : Char) : List Char :=
  match decode? letter with
  | some c => [c]
  | none => ['\\', letter]

/-- Writes a character, escaped if it can be. -/
def written (c : Char) : List Char :=
  match encode? c with
  | some letter => ['\\', letter]
  | none => [c]

theorem decode?_of_encode? {c letter : Char} (h : encode? c = some letter) :
    decode? letter = some c := by
  unfold encode? at h
  split at h <;> simp at h <;> subst h <;> rfl

theorem encode?_of_decode? {c letter : Char} (h : decode? letter = some c) :
    encode? c = some letter := by
  unfold decode? at h
  split at h <;> simp at h <;> subst h <;> rfl

/-- A letter decodes to a character just when that character is escaped with it. -/
theorem decode?_eq_some_iff {c letter : Char} :
    decode? letter = some c ↔ encode? c = some letter :=
  ⟨encode?_of_decode?, decode?_of_encode?⟩

end Escape

end FormulaSyntax
