import ConfigLang.Document
/-!
Documents as indented text, for reading and for comparing. A node is written as its name and its
fields in parentheses; lists take a line for each item, and a node of several fields takes a line
for each field if one of them needs more than one line.
-/

set_option autoImplicit false

namespace ConfigLang

/-- How a piece of text is tinted when colors are on. -/
inductive Tint where
  | node
  | label
  | quoted
deriving DecidableEq, Repr

namespace Tint

def code : Tint → String
  | node => "34"
  | label => "36"
  | quoted => "33"

/-- The escape that turns a tint on. -/
def opening (tint : Tint) : String :=
  "\x1b[" ++ tint.code ++ "m"

/-- The escape that turns every tint off. -/
def closing : String := "\x1b[0m"

end Tint

/-- Text within a line. -/
structure Piece where
  tint : Option Tint
  text : String
deriving DecidableEq, Repr

/-- A line and how many levels it is indented. -/
structure Line where
  depth : Nat
  pieces : List Piece
deriving DecidableEq, Repr

/-- Lines of which the first is not indented. -/
structure Layout where
  first : List Piece
  others : List Line
deriving DecidableEq, Repr

/-- How a layout is written. -/
structure LayoutOptions where
  color : Bool := false
  indent : Nat := 2
deriving DecidableEq, Repr

namespace Piece

def render (color : Bool) (piece : Piece) : String :=
  match color, piece.tint with
  | true, some tint => tint.opening ++ piece.text ++ Tint.closing
  | _, _ => piece.text

end Piece

namespace Line

def deeper (line : Line) : Line :=
  { line with depth := line.depth + 1 }

def render (options : LayoutOptions) (line : Line) : String :=
  String.ofList (List.replicate (line.depth * options.indent) ' ') ++
    String.join (line.pieces.map (Piece.render options.color))

end Line

namespace Layout

def plain (text : String) : Layout :=
  ⟨[⟨none, text⟩], []⟩

def tinted (tint : Tint) (text : String) : Layout :=
  ⟨[⟨some tint, text⟩], []⟩

/-- The lines, of which the last goes on with the pieces. -/
def extendLast (pieces : List Piece) : List Line → List Line
  | [] => []
  | [line] => [{ line with pieces := line.pieces ++ pieces }]
  | line :: next :: rest => line :: extendLast pieces (next :: rest)

/-- The second layout begins where the first ends. -/
protected def append (left right : Layout) : Layout :=
  match left.others with
  | [] => ⟨left.first ++ right.first, right.others⟩
  | others => ⟨left.first, extendLast right.first others ++ right.others⟩

instance : Append Layout := ⟨Layout.append⟩

/-- All lines, one level deeper. -/
def indented (layout : Layout) : List Line :=
  (⟨0, layout.first⟩ :: layout.others).map Line.deeper

def isOneLine (layout : Layout) : Bool :=
  layout.others.isEmpty

/-- The layouts in order, with a separator between two. -/
def separated (separator : Layout) : List Layout → Layout
  | [] => plain ""
  | [layout] => layout
  | layout :: next :: rest => layout ++ separator ++ separated separator (next :: rest)

/-- Marks around items that take their own lines, each with a comma. -/
def bracketed (opening closing : String) (items : List Layout) : Layout :=
  if items.isEmpty then plain (opening ++ closing)
  else
    let inner := items.flatMap fun item => indented (item ++ plain ",")
    ⟨[⟨none, opening⟩], inner ++ [⟨0, [⟨none, closing⟩]⟩]⟩

/-- The fields on lines of their own, with a comma after all but the last. -/
def stacked : List Layout → List Line
  | [] => []
  | [field] => indented field
  | field :: next :: rest => indented (field ++ plain ",") ++ stacked (next :: rest)

/-- A node with labelled fields. -/
def node (name : String) (fields : List (String × Layout)) : Layout :=
  let fields := fields.map fun (label, value) => tinted .label label ++ plain "=" ++ value
  let inside :=
    if 1 < fields.length ∧ ¬ fields.all isOneLine then
      ⟨[⟨none, "("⟩], stacked fields ++ [⟨0, [⟨none, ")"⟩]⟩]⟩
    else plain "(" ++ separated (plain ", ") fields ++ plain ")"
  tinted .node name ++ inside

def string (text : String) : Layout :=
  tinted .quoted (Text.quote text)

def lines (layout : Layout) : List Line :=
  ⟨0, layout.first⟩ :: layout.others

def render (options : LayoutOptions) (layout : Layout) : String :=
  String.intercalate "\n" (layout.lines.map (Line.render options))

end Layout

/-- The value of a literal, tinted like a string only if it is one. -/
def Scalar.layout : Scalar → Layout
  | .string value => .string value
  | value => .tinted .label value.text

/-- A literal as a node. -/
def Scalar.literalLayout (value : Scalar) : Layout :=
  .node "Literal" [("value", value.layout)]

namespace Expression

mutual

def layout : Expression → Layout
  | literal value => value.literalLayout
  | array items => .node "Array" [("values", .bracketed "[" "]" (layoutAll items))]
  | object fields => .node "Object" [("fields", .bracketed "\x7b" "\x7d" (layoutFields fields))]
  | call function arguments =>
    .node "FunctionCall"
      [("name", .string function), ("args", .bracketed "[" "]" (layoutAll arguments))]
  | identifier name => .node "Identifier" [("name", .string name)]
  | getAttr on name => .node "GetAttr" [("on", layout on), ("name", .string name)]
  | getIndex on index => .node "GetIndex" [("on", layout on), ("index", index.literalLayout)]
  | attrSplat on => .node "AttrSplat" [("on", layout on)]
  | indexSplat on => .node "IndexSplat" [("on", layout on)]
  | unary op operand =>
    .node "UnaryOp" [("op", .string op.symbol), ("expr", layout operand)]
  | binary op left right =>
    .node "BinaryOp" [("op", .string op.symbol), ("left", layout left), ("right", layout right)]

def layoutAll : List Expression → List Layout
  | [] => []
  | item :: rest => layout item :: layoutAll rest

def layoutFields : List (String × Expression) → List Layout
  | [] => []
  | (key, value) :: rest =>
    (Layout.string key ++ Layout.plain ": " ++ layout value) :: layoutFields rest

end

end Expression

namespace Statement

mutual

def layout : Statement → Layout
  | assign key value => .node "Attribute" [("key", .string key), ("value", value.layout)]
  | block name labels body =>
    .node "Block" [("name", .string name),
      ("args", .bracketed "[" "]" (Expression.layoutAll labels)),
      ("body", .bracketed "[" "]" (layoutAll body))]

def layoutAll : List Statement → List Layout
  | [] => []
  | statement :: rest => layout statement :: layoutAll rest

end

end Statement

def Document.layout (document : Document) : Layout :=
  .node "Module" [("body", .bracketed "[" "]" (Statement.layoutAll document.body))]

end ConfigLang
