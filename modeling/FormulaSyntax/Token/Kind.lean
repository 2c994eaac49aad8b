/-!
# Kinds of tokens

Most tokens are fixed symbols: brackets, operators, the line break and the end marker. Those are
the `Symbol`s. A `TokenKind` is a symbol or one of the kinds that come with a payload: names,
numbers, strings and the two truth values, which are kinds of their own.

Two texts belong to a kind. Its **label** names it in messages and in serialized tokens. Its
**spelling** is how a rendered token shows it; kinds whose text varies have none.
-/

set_option autoImplicit false

namespace FormulaSyntax

inductive Symbol where
  | leftParen | rightParen | leftBracket | rightBracket | leftBrace | rightBrace
  | dot | comma | newLine | endOfFile
  | plus | minus | star | slash | bang
  | assign | equal | notEqual | greater | less | greaterEqual | lessEqual
deriving DecidableEq, Inhabited

namespace Symbol

def all : List Symbol :=
  [leftParen, rightParen, leftBracket, rightBracket, leftBrace, rightBrace, dot, comma, newLine,
    endOfFile, plus, minus, star, slash, bang, assign, equal, notEqual, greater, less,
    greaterEqual, lessEqual]

/-- The name of a symbol in messages and in serialized tokens. -/
def label : Symbol → String
  | leftParen => "LParen"
  | rightParen => "RParen"
  | leftBracket => "LBracket"
  | rightBracket => "RBracket"
  | leftBrace => "LCurly"
  | rightBrace => "RCurly"
  | dot => "Dot"
  | comma => "Comma"
  | newLine => "NewLine"
  | endOfFile => "EOS"
  | plus => "Plus"
  | minus => "Minus"
  | star => "Star"
  | slash => "Slash"
  | bang => "Bang"
  | assign => "Eq"
  | equal => "EqEq"
  | notEqual => "NotEq"
  | greater => "Gt"
  | less => "Lt"
  | greaterEqual => "GtEq"
  | lessEqual => "LtEq"

/-- How a symbol is shown in rendered tokens. For all but the end marker that is also how it is
    written in a source. -/
def spelling : Symbol → String
  | leftParen => "("
  | rightParen => ")"
  | leftBracket => "["
  | rightBracket => "]"
  | leftBrace => "\x7b"
  | rightBrace => "\x7d"
  | dot => "."
  | comma => ","
  | newLine => "\n"
  | endOfFile => "EndOfFile"
  | plus => "+"
  | minus => "-"
  | star => "*"
  | slash => "/"
  | bang => "!"
  | assign => "="
  | equal => "=="
  | notEqual => "!="
  | greater => ">"
  | less => "<"
  | greaterEqual => ">="
  | lessEqual => "<="

/-- The symbol that a character is by itself. -/
def ofChar? : Char → Option Symbol
  | '+' => some plus
  | '-' => some minus
  | '*' => some star
  | '/' => some slash
  | '=' => some assign
  | '>' => some greater
  | '<' => some less
  | '!' => some bang
  | '(' => some leftParen
  | ')' => some rightParen
  | '\x7b' => some leftBrace
  | '\x7d' => some rightBrace
  | '[' => some leftBracket
  | ']' => some rightBracket
  | '.' => some dot
  | ',' => some comma
  | '\n' => some newLine
  | _ => none

/-- The symbol that a character is together with an equals sign behind it. -/
def withEquals? : Char → Option Symbol
  | '=' => some equal
  | '!' => some notEqual
  | '<' => some lessEqual
  | '>' => some greaterEqual
  | _ => none

theorem spelling_of_ofChar? {c : Char} {s : Symbol} (h : ofChar? c = some s) :
    s.spelling = String.singleton c := by
  unfold ofChar? at h
  split at h <;> simp at h <;> subst h <;> rfl

end Symbol

inductive TokenKind where
  | symbol (s : Symbol)
  | name
  | number
  | string
  | truth (value : Bool)
deriving DecidableEq, Inhabited

namespace TokenKind

def endOfFile : TokenKind := .symbol .endOfFile

def all : List TokenKind :=
  Symbol.all.map symbol ++ [name, number, string, truth true, truth false]

def label : TokenKind → String
  | symbol s => s.label
  | name => "Name"
  | number => "Number"
  | string => "String"
  | truth true => "True"
  | truth false => "False"

/-- Labels are read as they are written; there is one kind for each. -/
def ofLabel? (text : String) : Option TokenKind := all.find? fun kind => kind.label == text

/-- How a token of this kind is shown, if all tokens of the kind are shown alike. -/
def spelling? : TokenKind → Option String
  | symbol s => some s.spelling
  | truth true => some "true"
  | truth false => some "false"
  | name | number | string => none

end TokenKind

end FormulaSyntax
