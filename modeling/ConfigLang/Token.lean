import ConfigLang.Number.Integer
import ConfigLang.Number.Shortest
import ConfigLang.Text.Position
import ConfigLang.Text.Quoted
/-!
Tokens of the configuration language and their written forms.
-/

set_option autoImplicit false

namespace ConfigLang

/-- What a token is. A string token holds its contents, with the escapes resolved. -/
inductive Kind where
  | int (value : Int64)
  | float (value : Binary64)
  | ident (name : String)
  | string (contents : String)
  | plus
  | minus
  | star
  | slash
  | percent
  | assign
  | equal
  | bang
  | notEqual
  | less
  | lessEqual
  | greater
  | greaterEqual
  | and
  | or
  | colon
  | comma
  | dot
  | leftParen
  | rightParen
  | leftBrace
  | rightBrace
  | leftBracket
  | rightBracket
  | newline
  | eof
deriving DecidableEq, Repr

namespace Kind

/-- The tokens that join two operands. -/
def isBinaryOperator : Kind → Bool
  | plus | minus | star | slash | percent | equal | notEqual
  | less | lessEqual | greater | greaterEqual | and | or => true
  | _ => false

/-- The spelling of an operator. -/
def symbol? : Kind → Option String
  | plus => some "+"
  | minus => some "-"
  | star => some "*"
  | slash => some "/"
  | percent => some "%"
  | equal => some "=="
  | bang => some "!"
  | notEqual => some "!="
  | less => some "<"
  | lessEqual => some "<="
  | greater => some ">"
  | greaterEqual => some ">="
  | and => some "&&"
  | or => some "||"
  | _ => none

/-- The name of a kind, as messages give it. -/
def label : Kind → String
  | int _ => "Int"
  | float _ => "Float"
  | ident _ => "Ident"
  | string _ => "StringLit"
  | plus => "Plus"
  | minus => "Minus"
  | star => "Star"
  | slash => "Slash"
  | percent => "Percent"
  | assign => "Eq"
  | equal => "EqEq"
  | bang => "Bang"
  | notEqual => "BangEq"
  | less => "Lt"
  | lessEqual => "LtEq"
  | greater => "Gt"
  | greaterEqual => "GtEq"
  | and => "AndAnd"
  | or => "OrOr"
  | colon => "Colon"
  | comma => "Comma"
  | dot => "Dot"
  | leftParen => "LParen"
  | rightParen => "RParen"
  | leftBrace => "LBrace"
  | rightBrace => "RBrace"
  | leftBracket => "LBracket"
  | rightBracket => "RBracket"
  | newline => "Newline"
  | eof => "Eof"

/-- The kinds that hold nothing. -/
def marks : List Kind :=
  [plus, minus, star, slash, percent, assign, equal, bang, notEqual, less, lessEqual, greater,
    greaterEqual, and, or, colon, comma, dot, leftParen, rightParen, leftBrace, rightBrace,
    leftBracket, rightBracket, newline, eof]

/-- The kind without contents that has this name. -/
def ofLabel? (name : String) : Option Kind :=
  marks.find? fun kind => kind.label == name

/-- A kind as messages show it: its name, with what it holds in parentheses. -/
def text : Kind → String
  | int value => "Int(" ++ Integer.text value ++ ")"
  | float value => "Float(" ++ value.text ++ ")"
  | ident name => "Ident(" ++ Text.quote name ++ ")"
  | string contents => "StringLit(" ++ Text.quote contents ++ ")"
  | kind => kind.label

end Kind

/-- A token and the place where it begins. -/
structure Token where
  kind : Kind
  place : Position
deriving DecidableEq, Repr

end ConfigLang
