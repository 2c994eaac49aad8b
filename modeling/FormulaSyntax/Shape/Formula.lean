import FormulaSyntax.Expr.Canonical
import FormulaSyntax.Shape.Basic

/-!
# The shapes of formulas and their parts

A formula is a structure of its items. An expression is an alternative: of a structure for a
name, of a further alternative for a literal, of an expression for a prefix operator. The content
of an assignment and of a binary operation is a record, and is read from a record only.
-/

set_option autoImplicit false

namespace FormulaSyntax

namespace Ident

/-- A structure of one field, although it is one text. -/
def toShape (id : Ident) : Shape := .record [("name", .text id.name)]

def ofShape? (s : Shape) : Option Ident :=
  match s.fieldsOf? ["name"] with
  | some [name] => name.text?.map Ident.mk
  | _ => none

theorem ofShape?_toShape (id : Ident) : ofShape? id.toShape = some id := rfl

end Ident

namespace BinaryOp

/-- A bare alternative, named by its label. -/
def toShape (op : BinaryOp) : Shape := .text op.label

def ofShape? (s : Shape) : Option BinaryOp := s.bareTag?.bind ofLabel?

theorem ofShape?_toShape (op : BinaryOp) : ofShape? op.toShape = some op := by
  cases op <;> decide +kernel

end BinaryOp

namespace Literal

/-- An alternative with the value as its content. Numbers that are not finite are written as null,
    and are not read back. -/
def toShape : Literal → Shape
  | text value => .tagged "String" (.text value)
  | number value => .tagged "Number" (.ofBinary64 value)
  | truth value => .tagged "Bool" (.truth value)

/-- The literal of an alternative. A tag that is none of the three makes none, whatever the
    content. -/
def ofTagged? (tag : String) (content : Shape) : Option Literal :=
  if tag = "String" then content.text?.map text
  else if tag = "Number" then content.number?.map number
  else if tag = "Bool" then content.truth?.map truth
  else none

def ofShape? (s : Shape) : Option Literal :=
  s.content?.bind fun (tag, content) => ofTagged? tag content

end Literal

namespace PrefixOp

/-- Prefix operators are alternatives of an expression, not values of their own, so they have
    tags. -/
def tag : PrefixOp → String
  | not => "NegateBool"
  | negate => "NegateNumber"

def ofTag? (text : String) : Option PrefixOp :=
  if text = not.tag then some not
  else if text = negate.tag then some negate
  else none

end PrefixOp

namespace Expr

/-- The two operations of several parts have a record as their content, the others what they are
    made of. -/
def toShape : Expr → Shape
  | ident id => .tagged "Ident" id.toShape
  | assign target value =>
    .tagged "Assign" (.record [("target", target.toShape), ("value", value.toShape)])
  | binary left op right =>
    .tagged "Binary"
      (.record [("left", left.toShape), ("op", op.toShape), ("right", right.toShape)])
  | prefixed op operand => .tagged op.tag operand.toShape
  | literal value => .tagged "Literal" value.toShape

/-- Reads an expression. What is read inside it is smaller, so the reading ends. -/
def ofShape? (s : Shape) : Option Expr :=
  match _hs : s.content? with
  | none => none
  | some (tag, content) =>
    if tag = "Ident" then (Ident.ofShape? content).map ident
    else if tag = "Literal" then (Literal.ofShape? content).map literal
    else if tag = "Assign" then
      match _hv : content.entry? "value" with
      | none => none
      | some value => do
        let target ← (content.entry? "target").bind Ident.ofShape?
        let value ← ofShape? value
        return assign target value
    else if tag = "Binary" then
      match _hl : content.entry? "left", _hr : content.entry? "right" with
      | some left, some right => do
        let left ← ofShape? left
        let op ← (content.entry? "op").bind BinaryOp.ofShape?
        let right ← ofShape? right
        return binary left op right
      | _, _ => none
    else
      match PrefixOp.ofTag? tag with
      | some op => (ofShape? content).map (prefixed op)
      | none => none
termination_by sizeOf s
decreasing_by
  · exact Nat.lt_trans (Shape.sizeOf_entry?_lt ‹_›) (Shape.sizeOf_content?_lt ‹_›)
  · exact Nat.lt_trans (Shape.sizeOf_entry?_lt _hl) (Shape.sizeOf_content?_lt ‹_›)
  · exact Nat.lt_trans (Shape.sizeOf_entry?_lt _hr) (Shape.sizeOf_content?_lt ‹_›)
  · exact Shape.sizeOf_content?_lt ‹_›

end Expr

namespace Formula

def toShape (f : Formula) : Shape := .record [("items", .list (f.items.map Expr.toShape))]

/-- Reads all items, or none if one of them is no expression. -/
def ofShape? (s : Shape) : Option Formula :=
  match s.fieldsOf? ["items"] with
  | some [items] => do
    let items ← items.items?
    let items ← items.mapM Expr.ofShape?
    return ⟨items⟩
  | _ => none

end Formula

end FormulaSyntax
