import FormulaSyntax.Scan.Quotation
import FormulaSyntax.Text.Newline
import FormulaSyntax.Token.Basic

/-!
# The tokenizer

A `Tokenizer` turns the characters of a feed into tokens, one at a time. There are two ways to
ask it.

* `nextToken` scans the next lexeme. It never refuses: at the end of the text it gives the end
  marker again and again, and after an error it goes on behind the text in error.
* `next` gives the stream that a reader wants: tokens up to and including the first end marker,
  or up to and including the first error, and nothing afterwards.

`readings` is that stream as a list, and `tokenize` the tokens of a whole source, whose line ends
are normalized first.
-/

set_option autoImplicit false

namespace FormulaSyntax

/-- The characters that a name goes on with. -/
def isNamePart (c : Char) : Bool := c.isAlphanum || c == '_'

/-- The characters between lexemes. A line feed is not among them: it is a token. -/
def isBlank (c : Char) : Bool := c == ' ' || c == '\t'

/-- The lexeme that a whole name is: the two truth values are written as names. -/
def Lexeme.ofName (text : String) : Lexeme :=
  if text = "true" then .truth true
  else if text = "false" then .truth false
  else .name text

namespace Window

def nameParts (c : Char) (_following : Option Char) : Verdict :=
  if isNamePart c then .keep else .stop

def blanks (c : Char) (_following : Option Char) : Verdict :=
  if isBlank c then .skip else .stop

def nameLexeme (w : Window) : Except LexError Lexeme × Window :=
  let (chars, rest) := w.run nameParts
  (.ok (.ofName (String.ofList chars)), rest)

/-- A symbol, of two characters if it can be. A character that is no symbol is passed, too. -/
def symbolLexeme (c : Char) (w : Window) : Except LexError Lexeme × Window :=
  match if w.following? = some '=' then Symbol.withEquals? c else none with
  | some s => (.ok (.symbol s), w.advance.advance)
  | none =>
    match Symbol.ofChar? c with
    | some s => (.ok (.symbol s), w.advance)
    | none => (.error ⟨.invalidToken c, w.advance.spanFrom w.position⟩, w.advance)

/-- The lexeme at the current character, which is given and is no blank. -/
def lexeme (c : Char) (w : Window) : Except LexError Lexeme × Window :=
  if isNameStart c then nameLexeme w
  else if c.isDigit then
    let (result, rest) := w.number
    (result.map .number, rest)
  else if c = '"' ∨ c = '\'' then
    let (result, rest) := w.quotation c
    (result.map .string, rest)
  else symbolLexeme c w

/-- The next token: blanks are passed over, and at the end of the text there is the end marker. -/
def nextToken (w : Window) : Except LexError Token × Window :=
  let (_, w) := w.run blanks
  match w.current? with
  | none => (.ok .endOfFile, w)
  | some c =>
    let (result, rest) := lexeme c w
    (result.map fun l => ⟨l, rest.spanFrom w.position⟩, rest)

/-- Every lexeme takes at least one character, and so does every text in error. -/
theorem length_text_lexeme_lt {w : Window} {c : Char} (h : w.current? = some c) :
    (lexeme c w).2.text.length < w.text.length := by
  unfold lexeme
  split
  · next hs =>
    refine length_text_run_lt h ?_
    have hpart : isNamePart c = true := by
      simp only [isNameStart, isNamePart, Char.isAlphanum, Bool.or_eq_true] at hs ⊢
      exact hs.elim (fun ha => Or.inl (Or.inl ha)) Or.inr
    simp [nameParts, hpart]
  · split
    · next hd => exact length_text_number_lt h hd
    · split
      · exact length_text_quotation_lt h
      · unfold symbolLexeme
        split
        · exact Nat.lt_of_le_of_lt (length_text_advance_le _) (length_text_advance_lt h)
        · split <;> exact length_text_advance_lt h

theorem length_text_nextToken_lt {w : Window} (h : w.nextToken.1 ≠ .ok .endOfFile) :
    w.nextToken.2.text.length < w.text.length := by
  revert h
  simp only [nextToken]
  split
  · exact fun h => absurd rfl h
  · next c hc =>
    exact fun _ => Nat.lt_of_lt_of_le (length_text_lexeme_lt hc) (length_text_run_le blanks w)

end Window

/-- A window that is read as tokens, and whether the stream of tokens has ended. -/
structure Tokenizer where
  window : Window
  finished : Bool

structure Reading where
  answer : Except LexError Token
  position : Nat

namespace Tokenizer

/-- A tokenizer on a feed of characters. -/
def ofFeed (source : Feed Char) : Tokenizer := ⟨.ofFeed source, false⟩

def ofText (text : List Char) : Tokenizer := ⟨.ofText text, false⟩

/-- Scans the next token, whether or not the stream has ended. -/
def nextToken (t : Tokenizer) : Except LexError Token × Tokenizer :=
  let (answer, window) := t.window.nextToken
  (answer, { t with window })

def endsStream : Except LexError Token → Bool
  | .ok token => token.isEndOfFile
  | .error _ => true

/-- The next answer of the stream, nothing once it has ended. -/
def next (t : Tokenizer) : Option (Except LexError Token) × Tokenizer :=
  if t.finished then (none, t)
  else
    let scanned := t.window.nextToken
    (some scanned.1, ⟨scanned.2, endsStream scanned.1⟩)

def remaining (t : Tokenizer) : Nat := if t.finished then 0 else t.window.text.length + 1

/-- Every answer of the stream brings its end nearer. -/
theorem remaining_next_lt {t t' : Tokenizer} {answer : Except LexError Token}
    (h : t.next = (some answer, t')) : t'.remaining < t.remaining := by
  by_cases hf : t.finished = true
  · simp [next, hf] at h
  · rw [next, if_neg hf] at h
    have ht : (⟨t.window.nextToken.2, endsStream t.window.nextToken.1⟩ : Tokenizer) = t' :=
      congrArg Prod.snd h
    rw [← ht]
    by_cases hend : endsStream t.window.nextToken.1 = true
    · simp [remaining, hend, hf]
    · have hne : t.window.nextToken.1 ≠ .ok .endOfFile := fun heq => hend (heq ▸ rfl)
      simpa [remaining, hend, hf] using Window.length_text_nextToken_lt hne

/-- All further answers of the stream, behind those given already, last one first. -/
def readingsFrom (t : Tokenizer) (given : List Reading) : List Reading :=
  match _h : t.next with
  | (none, _) => given.reverse
  | (some answer, t') => readingsFrom t' (⟨answer, t'.window.position⟩ :: given)
termination_by t.remaining
decreasing_by exact remaining_next_lt ‹_›

def readings (t : Tokenizer) : List Reading := readingsFrom t []

end Tokenizer

/-- The tokens of a stream, behind those taken already, last one first; or its error. -/
def Reading.collect (taken : List Token) : List Reading → Except LexError (List Token)
  | [] => .ok taken.reverse
  | reading :: rest =>
    match reading.answer with
    | .error e => .error e
    | .ok token => collect (token :: taken) rest

/-- The stream of answers for a source, with its line ends normalized. -/
def readingsOf (source : String) : List Reading :=
  (Tokenizer.ofText (Newline.normalizeChars source.toList)).readings

/-- The tokens of a source, up to and including the end marker. -/
def tokenize (source : String) : Except LexError (List Token) :=
  Reading.collect [] (readingsOf source)

end FormulaSyntax
