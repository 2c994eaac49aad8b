import FormulaSyntax.Shape.Basic
import FormulaSyntax.Token.Basic

/-!
# The shapes of tokens and their parts

A token is a structure of its kind, its span and its payload, whose parts need not belong
together in data that comes from elsewhere. Reading a token therefore fails in two ways: the data
is no such structure at all, or it is one, and the payload is not one for the kind.
-/

set_option autoImplicit false

namespace FormulaSyntax

/-- Why data is not what it should be. -/
inductive ShapeError where
  /-- The data has another form. -/
  | malformed
  /-- A token in separate parts that do not belong together. -/
  | mismatch (m : PayloadMismatch)
deriving DecidableEq

namespace Span

/-- The record says `end` for the offset behind the last character. -/
def toShape (s : Span) : Shape := .record [("start", .integer s.start), ("end", .integer s.stop)]

/-- Offsets are read as they come; that they are in order is not asked for. -/
def ofShape? (s : Shape) : Option Span :=
  match s.fieldsOf? ["start", "end"] with
  | some [start, stop] => do
    let start ← start.natural?
    let stop ← stop.natural?
    return ⟨start, stop⟩
  | _ => none

theorem ofShape?_toShape (s : Span) : ofShape? s.toShape = some s := rfl

end Span

namespace TokenKind

def toShape (kind : TokenKind) : Shape := .text kind.label

def ofShape? (s : Shape) : Option TokenKind := s.bareTag?.bind ofLabel?

theorem ofShape?_toShape (kind : TokenKind) : ofShape? kind.toShape = some kind := by
  cases kind with
  | symbol s => cases s <;> decide +kernel
  | truth value => cases value <;> decide +kernel
  | name | number | string => decide +kernel

end TokenKind

namespace Payload

def toShape : Payload → Shape
  | none => .text "None"
  | text value => .tagged "Text" (.text value)
  | number value => .tagged "Number" (.ofBinary64 value)
  | truth value => .tagged "Bool" (.truth value)

/-- The payload of an alternative with content. `None` has none, and is no such alternative. -/
def ofTagged? (tag : String) (content : Shape) : Option Payload :=
  if tag = "Text" then content.text?.map text
  else if tag = "Number" then content.number?.map number
  else if tag = "Bool" then content.truth?.map truth
  else Option.none

def ofShape? (s : Shape) : Option Payload :=
  if s.bareTag? = some "None" then some none
  else s.content?.bind fun (tag, content) => ofTagged? tag content

end Payload

namespace Token

def toShape (t : Token) : Shape :=
  .record [("kind", t.kind.toShape), ("span", t.span.toShape), ("data", t.payload.toShape)]

/-- The parts of a token, whether or not they belong together. -/
def partsOfShape? (s : Shape) : Option (TokenKind × Span × Payload) :=
  match s.fieldsOf? ["kind", "span", "data"] with
  | some [kind, span, payload] => do
    let kind ← TokenKind.ofShape? kind
    let span ← Span.ofShape? span
    let payload ← Payload.ofShape? payload
    return (kind, span, payload)
  | _ => none

/-- Reads a token, and says which of the two failures it is otherwise. -/
def ofShape (s : Shape) : Except ShapeError Token :=
  match partsOfShape? s with
  | some (kind, span, payload) =>
    match ofParts? kind span payload with
    | .ok t => .ok t
    | .error m => .error (.mismatch m)
  | none => .error .malformed

end Token

end FormulaSyntax
