import ConfigLang.Fields
import ConfigLang.Scalar
/-!
Documents: statements that set attributes or open blocks, and the expressions in them.
-/

set_option autoImplicit false

namespace ConfigLang

inductive UnaryOperator where
  | neg
  | not
deriving DecidableEq, Repr

namespace UnaryOperator

def symbol : UnaryOperator → String
  | neg => "-"
  | not => "!"

def all : List UnaryOperator := [neg, not]

def ofSymbol? (symbol : String) : Option UnaryOperator :=
  all.find? fun op => op.symbol == symbol

end UnaryOperator

inductive BinaryOperator where
  | eq
  | notEq
  | less
  | greater
  | lessEq
  | greaterEq
  | add
  | sub
  | mul
  | div
  | mod
  | and
  | or
deriving DecidableEq, Repr

namespace BinaryOperator

def symbol : BinaryOperator → String
  | eq => "=="
  | notEq => "!="
  | less => "<"
  | greater => ">"
  | lessEq => "<="
  | greaterEq => ">="
  | add => "+"
  | sub => "-"
  | mul => "*"
  | div => "/"
  | mod => "%"
  | and => "&&"
  | or => "||"

def all : List BinaryOperator :=
  [eq, notEq, less, greater, lessEq, greaterEq, add, sub, mul, div, mod, and, or]

def ofSymbol? (symbol : String) : Option BinaryOperator :=
  all.find? fun op => op.symbol == symbol

end BinaryOperator

/-- Operations group as they are nested; no operator binds more tightly than another. -/
inductive Expression where
  | literal (value : Scalar)
  | array (items : List Expression)
  | object (fields : List (String × Expression))
  | call (function : String) (arguments : List Expression)
  | identifier (name : String)
  | getAttr (on : Expression) (name : String)
  | getIndex (on : Expression) (index : Scalar)
  | attrSplat (on : Expression)
  | indexSplat (on : Expression)
  | unary (op : UnaryOperator) (operand : Expression)
  | binary (op : BinaryOperator) (left right : Expression)
deriving Repr

/-- The name of the kind of an expression, as messages and printed trees give it. -/
def Expression.kind : Expression → String
  | literal _ => "Literal"
  | array _ => "Array"
  | object _ => "Object"
  | call _ _ => "FunctionCall"
  | identifier _ => "Identifier"
  | getAttr _ _ => "GetAttr"
  | getIndex _ _ => "GetIndex"
  | attrSplat _ => "AttrSplat"
  | indexSplat _ => "IndexSplat"
  | unary _ _ => "UnaryOp"
  | binary _ _ _ => "BinaryOp"

/-- What a line of a document says. -/
inductive Statement where
  | assign (key : String) (value : Expression)
  | block (name : String) (labels : List Expression) (body : List Statement)
deriving Repr

structure Document where
  body : List Statement
deriving Repr

end ConfigLang
