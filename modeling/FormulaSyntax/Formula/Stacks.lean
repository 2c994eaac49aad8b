import FormulaSyntax.Expr.Basic

/-!
# The two stacks of an expression under way

Operator precedence is resolved with a stack of operands and a stack of what is **pending**:
binary operators that wait for their right operand, prefix operators that wait for their only
one, and parentheses that wait to be closed. Everything that nests is on these stacks, so an
expression of any depth is read without nesting calls.

The stacks are moved by three operations.

* `reduce` combines operands by the binary operators on top, down to an operator that binds less
  tightly than the incoming one, or, with none incoming, down to the next parenthesis.
* `foldPrefixes` applies the prefix operators on top to the operand on top.
* `closeGroup` reduces all that stands inside the innermost parenthesis and drops it.

Where operands and operators do not pair up an operation fails with a fault.
-/

set_option autoImplicit false

namespace FormulaSyntax

/-- Something that waits for an operand or for its end, and the token that opened it. -/
inductive Pending where
  | binary (op : BinaryOp) (span : Span)
  | prefixed (op : PrefixOp) (span : Span)
  | group (span : Span)
deriving DecidableEq

namespace Pending

def missingOperand : Pending → ParseError
  | binary _ span => .syntactic .danglingOperator span
  | prefixed op span => .syntactic (.missingOperand op.char) span
  | group span => .syntactic .expectedExpression span

def groupSpan? : Pending → Option Span
  | group span => some span
  | binary _ _ | prefixed _ _ => none

end Pending

/-- The stacks of an expression, top first, and the number of parentheses open. -/
structure Stacks where
  operands : List Expr
  pending : List Pending
  openGroups : Nat

namespace Stacks

def empty : Stacks := ⟨[], [], 0⟩

def pushOperand (s : Stacks) (e : Expr) : Stacks := { s with operands := e :: s.operands }

/-- Puts something on the pending stack, and counts a parenthesis. -/
def push (s : Stacks) (p : Pending) : Stacks :=
  { s with
    pending := p :: s.pending
    openGroups := s.openGroups + (if p.groupSpan?.isSome then 1 else 0) }

/-- Whether an operator on the stack is combined before an incoming one goes on top of it. An
    operator that binds equally tightly is, which makes all operators group to the left. -/
def yieldsTo (top : BinaryOp) (incoming : Option BinaryOp) : Bool :=
  match incoming with
  | some op => decide (op.precedence ≤ top.precedence)
  | none => true

/-- Combines operands by the operators on top that yield to the incoming one. -/
def reducing (incoming : Option BinaryOp) :
    List Expr → List Pending → Except Fault (List Expr × List Pending)
  | operands, .binary top span :: pending =>
    if yieldsTo top incoming then
      match operands with
      | right :: left :: rest => reducing incoming (.binary left top right :: rest) pending
      | _ => .error .brokenReduction
    else .ok (operands, .binary top span :: pending)
  | operands, pending => .ok (operands, pending)

/-- Applies the prefix operators on top, the innermost first. -/
def folding : List Expr → List Pending → Except Fault (List Expr × List Pending)
  | operands, .prefixed op _ :: pending =>
    match operands with
    | operand :: rest => folding (.prefixed op operand :: rest) pending
    | [] => .error .brokenReduction
  | operands, pending => .ok (operands, pending)

def reduce (s : Stacks) (incoming : Option BinaryOp) : Except Fault Stacks :=
  match reducing incoming s.operands s.pending with
  | .ok (operands, pending) => .ok { s with operands, pending }
  | .error fault => .error fault

def foldPrefixes (s : Stacks) : Except Fault Stacks :=
  match folding s.operands s.pending with
  | .ok (operands, pending) => .ok { s with operands, pending }
  | .error fault => .error fault

def closeGroup (s : Stacks) : Except Fault Stacks :=
  match s.reduce none with
  | .ok ⟨operands, .group _ :: pending, openGroups⟩ => .ok ⟨operands, pending, openGroups - 1⟩
  | .ok _ => .error .brokenReduction
  | .error fault => .error fault

def result (s : Stacks) : Except Fault Expr :=
  match s.reduce none with
  | .ok ⟨[e], [], _⟩ => .ok e
  | .ok _ => .error .brokenReduction
  | .error fault => .error fault

/-- The place of the innermost open parenthesis. -/
def innermostGroup? (s : Stacks) : Option Span := s.pending.findSome? Pending.groupSpan?

end Stacks

end FormulaSyntax
