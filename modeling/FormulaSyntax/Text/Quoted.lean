import FormulaSyntax.Text.Unprintable
import FormulaSyntax.Text.GraphemeExtend
import FormulaSyntax.Text.DefaultIgnorable

/-!
# Text and characters in quotes

Where a text is shown *as a value*, in the canonical form of a formula or in a message, it
stands in quotes and everything that could be misread is escaped: the zero character, tab, line
feed, carriage return and the backslash have a short escape, as has the quote in use; characters
that are drawn onto the one before them, show nothing or have no printed form are written by code
point, in lower case hexadecimal between braces. All else stands for itself.

Only the quote in use is escaped: a text in double quotes may hold single ones as they are, and a
character in single quotes may be a double quote.
-/

set_option autoImplicit false

namespace FormulaSyntax

namespace Text

def codePointEscape (c : Char) : List Char :=
  '\\' :: 'u' :: '\x7b' :: Nat.toDigits 16 c.toNat ++ ['\x7d']

/-- Whether a character would be drawn onto the one before it. -/
def isDrawnOntoPrevious (c : Char) : Bool := isGraphemeExtend c && !isHalfwidthSoundMark c

/-- Whether a character is written by code point, unless it has a short escape. -/
def needsCodePoint (c : Char) : Bool :=
  isDrawnOntoPrevious c || isDefaultIgnorable c || isUnprintable c

/-- How a character is written between a pair of quotes. -/
def quotedChar (quote c : Char) : List Char :=
  if c = '\x00' then ['\\', '0']
  else if c = '\t' then ['\\', 't']
  else if c = '\n' then ['\\', 'n']
  else if c = '\r' then ['\\', 'r']
  else if c = '\\' then ['\\', '\\']
  else if c = quote then ['\\', quote]
  else if needsCodePoint c then codePointEscape c
  else [c]

/-- A run of characters between a pair of quotes. -/
def quotedWith (quote : Char) (text : List Char) : List Char :=
  quote :: text.flatMap (quotedChar quote) ++ [quote]

def quoted (text : String) : String := String.ofList (quotedWith '"' text.toList)

def quotedSingle (c : Char) : String := String.ofList (quotedWith '\'' [c])

end Text

end FormulaSyntax
