import FormulaSyntax.Failure
import FormulaSyntax.Token.Basic

/-!
# Expressions and formulas

A formula is a list of items in source order. An item is an expression, or an assignment of one
to a name; the order matters because a host evaluates the items from top to bottom. `assign` is a
form of `Expr` like the others, although the parser makes it only at the root of an item.

Parentheses leave no trace in an expression. `canonical` writes it with a pair of them around
every binary operation, so its text shows the grouping and needs no precedences to be read.
-/

set_option autoImplicit false

namespace FormulaSyntax

/-! ## Operators -/

inductive BinaryOp where
  | equal | notEqual
  | less | lessEqual | greater | greaterEqual
  | add | sub
  | mul | div
deriving DecidableEq, Inhabited

namespace BinaryOp

def all : List BinaryOp :=
  [equal, notEqual, less, lessEqual, greater, greaterEqual, add, sub, mul, div]

/-- How tightly an operator binds. All operators group to the left. -/
def precedence : BinaryOp → Nat
  | equal | notEqual => 3
  | less | lessEqual | greater | greaterEqual => 4
  | add | sub => 5
  | mul | div => 6

def symbol : BinaryOp → Symbol
  | equal => .equal
  | notEqual => .notEqual
  | less => .less
  | lessEqual => .lessEqual
  | greater => .greater
  | greaterEqual => .greaterEqual
  | add => .plus
  | sub => .minus
  | mul => .star
  | div => .slash

def spelling (op : BinaryOp) : String := op.symbol.spelling

def label : BinaryOp → String
  | equal => "Eq"
  | notEqual => "NotEq"
  | less => "Lt"
  | lessEqual => "LtEq"
  | greater => "Gt"
  | greaterEqual => "GtEq"
  | add => "Add"
  | sub => "Sub"
  | mul => "Mul"
  | div => "Div"

def ofLabel? (text : String) : Option BinaryOp := all.find? fun op => op.label == text

/-- The operator that a symbol is behind an operand. A minus in front of one is no operator of
    this kind. -/
def ofSymbol? : Symbol → Option BinaryOp
  | .equal => some equal
  | .notEqual => some notEqual
  | .less => some less
  | .lessEqual => some lessEqual
  | .greater => some greater
  | .greaterEqual => some greaterEqual
  | .plus => some add
  | .minus => some sub
  | .star => some mul
  | .slash => some div
  | _ => none

def ofKind? : TokenKind → Option BinaryOp
  | .symbol s => ofSymbol? s
  | _ => none

/-- The operator of a token that is known to be one. -/
def ofKind (kind : TokenKind) : Except Fault BinaryOp :=
  match ofKind? kind with
  | some op => .ok op
  | none => .error (.unknownOperator kind)

/-- Operators and their symbols correspond one to one. -/
theorem ofSymbol?_eq_some_iff {s : Symbol} {op : BinaryOp} :
    ofSymbol? s = some op ↔ s = op.symbol := by
  cases s <;> cases op <;> decide

theorem ofKind?_symbol (op : BinaryOp) : ofKind? (.symbol op.symbol) = some op :=
  ofSymbol?_eq_some_iff.mpr rfl

end BinaryOp

/-- The operators in front of one operand: of a truth value and of a number. -/
inductive PrefixOp where
  | not
  | negate
deriving DecidableEq, Inhabited

namespace PrefixOp

def char : PrefixOp → Char
  | not => '!'
  | negate => '-'

def symbol : PrefixOp → Symbol
  | not => .bang
  | negate => .minus

end PrefixOp

/-! ## Trees -/

structure Ident where
  name : String
deriving DecidableEq, Inhabited

/-- A value that is written as itself. The text of a string has its escapes decoded. -/
inductive Literal where
  | text (value : String)
  | number (value : Binary64)
  | truth (value : Bool)
deriving DecidableEq, Inhabited

/-- An expression, or an assignment. -/
inductive Expr where
  | ident (id : Ident)
  | assign (target : Ident) (value : Expr)
  | binary (left : Expr) (op : BinaryOp) (right : Expr)
  | prefixed (op : PrefixOp) (operand : Expr)
  | literal (value : Literal)
deriving DecidableEq, Inhabited

/-- Items in source order. -/
structure Formula where
  items : List Expr
deriving DecidableEq, Inhabited

namespace Expr

def nodes : Expr → Nat
  | ident _ | literal _ => 1
  | assign _ value => value.nodes + 1
  | binary left _ right => left.nodes + right.nodes + 1
  | prefixed _ operand => operand.nodes + 1

/-- The number of nodes on the longest way from the root to a leaf. -/
def height : Expr → Nat
  | ident _ | literal _ => 1
  | assign _ value => value.height + 1
  | binary left _ right => max left.height right.height + 1
  | prefixed _ operand => operand.height + 1

end Expr

end FormulaSyntax
