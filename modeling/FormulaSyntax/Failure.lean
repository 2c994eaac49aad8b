import FormulaSyntax.Span
import FormulaSyntax.Text.Quoted
import FormulaSyntax.Token.Kind

/-!
# What can go wrong

There are three sorts of failure. A **lexical error** is a text that is no lexeme. A **syntax
error** is a token that cannot stand where it stands. Both have a cause and the span where it was
found, whatever the cause is. A **fault** is neither: it would be a parser that is at odds with
itself, whatever its input, so it has no place in the source.

The wording is kept apart from the causes, in one `message` for each sort.
-/

set_option autoImplicit false

namespace FormulaSyntax

instance Except.decideEq {ε α : Type} [DecidableEq ε] [DecidableEq α] : DecidableEq (Except ε α)
  | .ok a, .ok b =>
    if h : a = b then isTrue (congrArg Except.ok h) else isFalse fun e => h (Except.ok.inj e)
  | .error a, .error b =>
    if h : a = b then isTrue (congrArg Except.error h) else isFalse fun e => h (Except.error.inj e)
  | .ok _, .error _ => isFalse fun e => nomatch e
  | .error _, .ok _ => isFalse fun e => nomatch e

/-- Why a text is no lexeme. -/
inductive LexCause where
  /-- A string literal whose line or whose source ends before the closing quote. -/
  | unterminatedString
  /-- A character that begins no lexeme. -/
  | invalidToken (ch : Char)
  /-- A radix mark with no digit behind it. -/
  | emptyRadixDigits
  /-- An exponent mark with no digit behind it. -/
  | emptyExponent
  /-- A number that ends in a separator. -/
  | trailingUnderscore
  /-- A number too large to have a value. -/
  | invalidNumber (text : String)
deriving DecidableEq

structure LexError where
  cause : LexCause
  span : Span
deriving DecidableEq

namespace LexError

/-- What a lexical error says in front of its place. -/
def summary : LexCause → String
  | .unterminatedString => "Unterminated string literal"
  | .invalidToken ch => "Invalid token: " ++ Text.quotedSingle ch
  | .emptyRadixDigits => "Empty radix number"
  | .emptyExponent => "Empty exponent"
  | .trailingUnderscore => "Trailing _ are not allowed"
  | .invalidNumber text => "Invalid number: " ++ text

def message (e : LexError) : String := summary e.cause ++ " at " ++ toString e.span

end LexError

/-- Why a token cannot stand where it stands. -/
inductive SyntaxCause where
  /-- Nothing behind the equals sign of an assignment. -/
  | emptyAssignment
  /-- Nothing behind a binary operator. -/
  | danglingOperator
  /-- Nothing behind a prefix operator. -/
  | missingOperand (op : Char)
  /-- Nothing behind an opening parenthesis. -/
  | expectedExpression
  /-- An opening parenthesis whose expression ends without the closing one. -/
  | unclosedParen
  /-- A token that neither continues nor begins an item. -/
  | unexpectedToken (kind : TokenKind)
  /-- A form that the language reserves. -/
  | unsupported (what : String)
deriving DecidableEq

/-- A parser at odds with itself. -/
inductive Fault where
  /-- Operands and operators do not pair up. -/
  | brokenReduction
  /-- A token taken for a binary operator is none. -/
  | unknownOperator (kind : TokenKind)
  /-- A token that was seen is not there. -/
  | missingToken
  /-- A token does not carry what its kind promises. -/
  | payloadMismatch (kind : TokenKind)
deriving DecidableEq

inductive ParseError where
  | lexical (error : LexError)
  | syntactic (cause : SyntaxCause) (span : Span)
  | internal (fault : Fault)
deriving DecidableEq

/-- What a syntax error says in front of its place. -/
def SyntaxCause.summary : SyntaxCause → String
  | .emptyAssignment => "Empty assignment"
  | .danglingOperator => "Expected expression after operator"
  | .missingOperand op => "Expected expression after " ++ String.singleton op
  | .expectedExpression => "Expected expression"
  | .unclosedParen => "Unclosed parenthesis"
  | .unexpectedToken kind => "Unexpected token " ++ kind.label
  | .unsupported what => "Unsupported syntax: " ++ what

def Fault.message : Fault → String
  | .brokenReduction => "operator reduction left the expression stack inconsistent"
  | .unknownOperator kind => "token " ++ kind.label ++ " has no binary operator mapping"
  | .missingToken => "consumed past the end of the token lookahead"
  | .payloadMismatch kind => "token " ++ kind.label ++ " carries a payload of the wrong type"

namespace ParseError

def message : ParseError → String
  | lexical error => error.message
  | syntactic cause span => cause.summary ++ " at " ++ toString span
  | internal fault => "Internal parser error: " ++ fault.message

/-- Where the failure was found; a fault has no place. -/
def span? : ParseError → Option Span
  | lexical error => some error.span
  | syntactic _ span => some span
  | internal _ => none

def isInternal : ParseError → Bool
  | internal _ => true
  | lexical _ | syntactic _ _ => false

/-- Just the failures that are not the source's have no place in it. -/
theorem span?_eq_none_iff (e : ParseError) : e.span? = none ↔ e.isInternal = true := by
  cases e <;> simp [span?, isInternal]

end ParseError

end FormulaSyntax
