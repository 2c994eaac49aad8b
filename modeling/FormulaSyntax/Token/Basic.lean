import FormulaSyntax.Binary64.Text
import FormulaSyntax.Span
import FormulaSyntax.Text.Escape
import FormulaSyntax.Text.Quoted
import FormulaSyntax.Token.Kind

/-!
# Tokens

A token is a **lexeme**, what was read, together with the span where it was read. The lexeme
carries the payload that belongs to its kind: a name and a string carry their text, a number its
value, a truth value itself, a symbol nothing. So no token with a payload of the wrong type
exists.

Tokens that come from elsewhere arrive in separate parts, a kind and a payload. `Token.ofParts?`
puts the parts together if they belong together, and every token comes apart into parts that do.
-/

set_option autoImplicit false

namespace FormulaSyntax

/-- The payload of a token, apart from its kind. -/
inductive Payload where
  | none
  | text (value : String)
  | number (value : Binary64)
  | truth (value : Bool)
deriving DecidableEq, Inhabited

/-- What a token says. The text of a string is its content, escapes already decoded. -/
inductive Lexeme where
  | symbol (s : Symbol)
  | name (text : String)
  | number (value : Binary64)
  | string (text : String)
  | truth (value : Bool)
deriving DecidableEq, Inhabited

namespace Lexeme

def kind : Lexeme → TokenKind
  | symbol s => .symbol s
  | name _ => .name
  | number _ => .number
  | string _ => .string
  | truth value => .truth value

def payload : Lexeme → Payload
  | symbol _ => .none
  | name text => .text text
  | number value => .number value
  | string text => .text text
  | truth value => .truth value

/-- The lexeme of a kind and a payload, if the payload is one for that kind. -/
def ofParts? : TokenKind → Payload → Option Lexeme
  | .symbol s, .none => some (symbol s)
  | .name, .text text => some (name text)
  | .number, .number value => some (number value)
  | .string, .text text => some (string text)
  | .truth true, .truth true => some (truth true)
  | .truth false, .truth false => some (truth false)
  | _, _ => none

/-- The text of a string lexeme as it is written between quotes: every character that has an
    escape is escaped. -/
def escaped (text : String) : String := String.ofList (text.toList.flatMap Escape.written)

def render : Lexeme → String
  | symbol s => s.spelling
  | name text => text
  | number value => value.plain
  | string text => "\"" ++ escaped text ++ "\""
  | truth true => "true"
  | truth false => "false"

theorem ofParts?_kind_payload (l : Lexeme) : ofParts? l.kind l.payload = some l := by
  cases l with
  | truth value => cases value <;> rfl
  | symbol _ | name _ | number _ | string _ => rfl

/-- Parts that are put together come out of the lexeme unchanged. -/
theorem parts_of_ofParts? {kind : TokenKind} {payload : Payload} {l : Lexeme}
    (h : ofParts? kind payload = some l) : l.kind = kind ∧ l.payload = payload := by
  unfold ofParts? at h
  split at h <;> simp at h <;> subst h <;> exact ⟨rfl, rfl⟩

end Lexeme

/-- A payload that is not one for the kind it came with. -/
structure PayloadMismatch where
  kind : TokenKind
  payload : Payload
deriving DecidableEq

def Payload.describe : Payload → String
  | .none => "None"
  | .text value => "Text(" ++ Text.quoted value ++ ")"
  | .number value => "Number(" ++ value.pointed ++ ")"
  | .truth value => "Bool(" ++ toString value ++ ")"

def PayloadMismatch.message (m : PayloadMismatch) : String :=
  m.kind.label ++ " token cannot carry payload " ++ m.payload.describe

/-- A lexeme and where it stands. -/
structure Token where
  lexeme : Lexeme
  span : Span
deriving DecidableEq, Inhabited

namespace Token

def kind (t : Token) : TokenKind := t.lexeme.kind

def payload (t : Token) : Payload := t.lexeme.payload

/-! ## Making tokens -/

def name (text : String) (span : Span) : Token := ⟨.name text, span⟩

def number (value : Binary64) (span : Span) : Token := ⟨.number value, span⟩

def string (text : String) (span : Span) : Token := ⟨.string text, span⟩

def truth (value : Bool) (span : Span) : Token := ⟨.truth value, span⟩

def symbol (s : Symbol) (span : Span) : Token := ⟨.symbol s, span⟩

/-- The end marker. It stands nowhere in the source, so its span is empty, at the start. -/
def endOfFile : Token := symbol .endOfFile ⟨0, 0⟩

/-- A token of a kind that has no payload. -/
def simple? : TokenKind → Span → Option Token
  | .symbol s, span => some (symbol s span)
  | _, _ => none

def ofParts? (kind : TokenKind) (span : Span) (payload : Payload) : Except PayloadMismatch Token :=
  match Lexeme.ofParts? kind payload with
  | some lexeme => .ok ⟨lexeme, span⟩
  | none => .error ⟨kind, payload⟩

/-! ## Looking at tokens -/

def isEndOfFile (t : Token) : Bool := t.kind == .endOfFile

/-- The text of a name, or the content of a string. -/
def text? (t : Token) : Option String :=
  match t.payload with
  | .text value => some value
  | _ => none

def number? (t : Token) : Option Binary64 :=
  match t.payload with
  | .number value => some value
  | _ => none

def truth? (t : Token) : Option Bool :=
  match t.payload with
  | .truth value => some value
  | _ => none

/-- The text that shows a token; its span plays no part. -/
def render (t : Token) : String := t.lexeme.render

instance : ToString Token := ⟨render⟩

@[simp] theorem kind_endOfFile : endOfFile.kind = .endOfFile := rfl

/-- A token is put together again from its parts. -/
theorem ofParts?_parts (t : Token) : ofParts? t.kind t.span t.payload = .ok t := by
  simp [ofParts?, kind, payload, Lexeme.ofParts?_kind_payload]

theorem simple?_eq_some_iff {kind : TokenKind} {span : Span} {t : Token} :
    simple? kind span = some t ↔ ∃ s, kind = .symbol s ∧ t = symbol s span := by
  cases kind <;> simp [simple?, eq_comm]

end Token

end FormulaSyntax
