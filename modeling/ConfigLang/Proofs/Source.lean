import ConfigLang.Document
/-!
One text for every document that a text can stand for. The text has a statement on each line, every
string in quotes, and every operand in parentheses.
-/

set_option autoImplicit false

namespace ConfigLang

namespace Source

/-! ### Texts -/

/-- A character between quotes. -/
def escape : Char → List Char
  | '\\' => ['\\', '\\']
  | '"' => ['\\', '"']
  | '\n' => ['\\', 'n']
  | '\r' => ['\\', 'r']
  | '\t' => ['\\', 't']
  | '$' => ['\\', '$']
  | char => [char]

/-- A string in quotes. -/
def quote (contents : String) : String :=
  "\"" ++ String.ofList (contents.toList.flatMap escape) ++ "\""

/-- A literal. -/
def scalar : Scalar → String
  | .string contents => quote contents
  | value => value.text

/-- An operand in parentheses. -/
def group (text : String) : String :=
  "(" ++ text ++ ")"

mutual

def expression : Expression → String
  | .literal value => scalar value
  | .array items => "[" ++ expressions items ++ "]"
  | .object fields => "\x7b" ++ entries fields ++ "\x7d"
  | .call function arguments => function ++ "(" ++ expressions arguments ++ ")"
  | .identifier name => name
  | .getAttr on name => group (expression on) ++ ("." ++ name)
  | .getIndex on index => group (expression on) ++ ("[" ++ scalar index ++ "]")
  | .attrSplat on => group (expression on) ++ ".*"
  | .indexSplat on => group (expression on) ++ "[*]"
  | .unary op operand => op.symbol ++ group (expression operand)
  | .binary op left right =>
    group (expression left) ++ (" " ++ op.symbol ++ " ") ++ group (expression right)

/-- Expressions with commas between them. -/
def expressions : List Expression → String
  | [] => ""
  | [item] => expression item
  | item :: next :: rest => expression item ++ ", " ++ expressions (next :: rest)

/-- Keys and values with commas between them. -/
def entries : List (String × Expression) → String
  | [] => ""
  | [(key, value)] => quote key ++ " = " ++ expression value
  | (key, value) :: next :: rest =>
    quote key ++ " = " ++ expression value ++ ", " ++ entries (next :: rest)

end

/-- The labels of a block, each after a space. -/
def labels : List Expression → String
  | [] => ""
  | label :: rest => " " ++ expression label ++ labels rest

mutual

def statement : Statement → String
  | .assign key value => key ++ " = " ++ expression value
  | .block name heads body => name ++ labels heads ++ " \x7b\n" ++ statements body ++ "\x7d"

/-- Statements, each with the end of its line. -/
def statements : List Statement → String
  | [] => ""
  | first :: rest => statement first ++ "\n" ++ statements rest

end

/-- The text of a document. -/
def document (document : Document) : String :=
  statements document.body

/-! ### What can be written -/

/-- `[A-Za-z_][A-Za-z0-9_-]*` -/
def isName (text : String) : Bool :=
  match text.toList with
  | [] => false
  | first :: rest =>
    (first.isAlpha || first = '_') &&
      rest.all fun char => char.isAlphanum || char = '_' || char = '-'

/-- There is no way to write a percent sign before a brace in quotes. -/
def IsQuotable (contents : String) : Prop :=
  ¬['%', '{'] <:+: contents.toList

instance (contents : String) : Decidable (IsQuotable contents) :=
  inferInstanceAs (Decidable (¬_))

/-- Numbers are written without a sign, and floats are not written at all. -/
inductive IsLiteral : Scalar → Prop
  | null : IsLiteral .null
  | bool (value : Bool) : IsLiteral (.bool value)
  | int {value : Int64} (unsigned : 0 ≤ value.toInt) : IsLiteral (.int value)
  | string {contents : String} (quotable : IsQuotable contents) : IsLiteral (.string contents)

inductive IsIndex : Scalar → Prop
  | int {value : Int64} (unsigned : 0 ≤ value.toInt) : IsIndex (.int value)
  | string {contents : String} (quotable : IsQuotable contents) : IsIndex (.string contents)

/-- An expression of its own, with at most so many levels of expressions below it. -/
inductive IsExpression : Nat → Expression → Prop
  | literal {levels : Nat} {value : Scalar} (literal : IsLiteral value) :
      IsExpression levels (.literal value)
  | identifier {levels : Nat} {name : String} (named : isName name)
      (free : name ≠ "true" ∧ name ≠ "false" ∧ name ≠ "null") :
      IsExpression levels (.identifier name)
  | array {levels : Nat} {items : List Expression}
      (inner : ∀ item ∈ items, IsExpression levels item) : IsExpression (levels + 1) (.array items)
  | object {levels : Nat} {fields : List (String × Expression)}
      (distinct : (fields.map Prod.fst).Nodup) (keys : ∀ field ∈ fields, IsQuotable field.1)
      (inner : ∀ field ∈ fields, IsExpression levels field.2) :
      IsExpression (levels + 1) (.object fields)
  | call {levels : Nat} {function : String} {arguments : List Expression}
      (named : isName function) (inner : ∀ argument ∈ arguments, IsExpression levels argument) :
      IsExpression (levels + 1) (.call function arguments)
  | getAttr {levels : Nat} {on : Expression} {name : String} (inner : IsExpression levels on)
      (named : isName name) : IsExpression (levels + 1) (.getAttr on name)
  | getIndex {levels : Nat} {on : Expression} {index : Scalar} (inner : IsExpression levels on)
      (literal : IsIndex index) : IsExpression (levels + 1) (.getIndex on index)
  | attrSplat {levels : Nat} {on : Expression} (inner : IsExpression levels on) :
      IsExpression (levels + 1) (.attrSplat on)
  | indexSplat {levels : Nat} {on : Expression} (inner : IsExpression levels on) :
      IsExpression (levels + 1) (.indexSplat on)
  | unary {levels : Nat} {op : UnaryOperator} {operand : Expression}
      (inner : IsExpression levels operand) : IsExpression (levels + 1) (.unary op operand)
  | binary {levels : Nat} {op : BinaryOperator} {left right : Expression}
      (before : IsExpression levels left) (after : IsExpression levels right) :
      IsExpression (levels + 1) (.binary op left right)

/-- A label is any name or a string. -/
inductive IsLabel : Expression → Prop
  | name {name : String} (named : isName name) : IsLabel (.identifier name)
  | string {contents : String} (quotable : IsQuotable contents) :
      IsLabel (.literal (.string contents))

/-- A statement with at most so many levels of blocks and expressions in it. -/
inductive IsStatement : Nat → Statement → Prop
  | assign {levels : Nat} {key : String} {value : Expression} (named : isName key)
      (inner : IsExpression levels value) : IsStatement levels (.assign key value)
  | block {levels : Nat} {name : String} {heads : List Expression} {body : List Statement}
      (named : isName name) (labelled : ∀ label ∈ heads, IsLabel label)
      (inner : ∀ statement ∈ body, IsStatement levels statement) :
      IsStatement (levels + 1) (.block name heads body)

/-- A document in which blocks and expressions are nested at most 60 levels deep. -/
def IsDocument (document : Document) : Prop :=
  ∀ statement ∈ document.body, IsStatement 60 statement

end Source

end ConfigLang
