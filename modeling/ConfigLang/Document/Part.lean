import ConfigLang.Document
import ConfigLang.Tree
/-!
What the nodes of a tree stand for. The parts of a node's children make up the part of the node;
a node whose children do not fit is malformed.
-/

set_option autoImplicit false

namespace ConfigLang

/-- A step from a value to a part of it. -/
inductive Access where
  | attr (name : String)
  | index (value : Scalar)
  | attrSplat
  | fullSplat
deriving DecidableEq, Repr

/-- What a node stands for. A name is not yet a reference, a key or a label, and a primitive is
not yet an expression. -/
inductive Part where
  | token (token : Token)
  | newline
  | name (name : String)
  | primitive (value : Scalar)
  | expression (value : Expression)
  | statement (value : Statement)
  | body (statements : List Statement)
  | arguments (values : List Expression)
  | element (key : String) (value : Expression)
  | access (step : Access)
  | operator (op : BinaryOperator)
  | operation (op : BinaryOperator) (right : Expression)
  | document (value : Document)
deriving Repr

/-- The sort of a part, as messages give it. -/
def Part.text : Part → String
  | token _ => "token"
  | newline => "newline"
  | name _ => "name"
  | primitive _ => "primitive"
  | expression _ => "expression"
  | statement _ => "statement"
  | body _ => "body"
  | arguments _ => "arguments"
  | element _ _ => "object element"
  | access _ => "projection"
  | operator _ => "operator"
  | operation _ _ => "binary term"
  | document _ => "module"

/-- What is wrong with the children of a node. -/
inductive Flaw where
  | unexpected (part : Part)
  | childCount (wanted found : Nat)
  | incompleteBlock
  | noBody
  | noFunction
  | wrongToken (wanted : String) (found : Kind)
  | noOperator (found : Kind)
  | noDocument (part : Part)
deriving Repr

def Flaw.message : Flaw → String
  | unexpected part => "unexpected " ++ part.text
  | childCount wanted found =>
    "expected " ++ toString wanted ++ " children, found " ++ toString found
  | incompleteBlock => "block needs a name and a body"
  | noBody => "block does not end with a body"
  | noFunction => "function call has no name"
  | wrongToken wanted found => "expected " ++ wanted ++ " token, found " ++ found.text
  | noOperator found => found.text ++ " is not a binary operator"
  | noDocument part => "expected module, found " ++ part.text

/-- A node whose children do not fit. -/
structure Malformed where
  rule : Rule
  line : Nat
  flaw : Flaw
deriving Repr

/-- How a malformed node is reported. -/
def Malformed.report (rule : Rule) (line : Nat) (message : String) : String :=
  "malformed `" ++ rule.name ++ "` node (line " ++ toString line ++ "): " ++ message

namespace Part

/-- A reading of the parts of the children. -/
abbrev Reading (α : Type) : Type :=
  Except Flaw α

def isNewline : Part → Bool
  | newline => true
  | token leaf => leaf.kind = .newline
  | _ => false

/-- The parts that are no newlines. -/
def strip (parts : List Part) : List Part :=
  parts.filter fun part => !part.isNewline

/-- The part as an expression: a primitive stands for its literal. -/
def toExpression : Part → Reading Expression
  | expression value => .ok value
  | primitive value => .ok (.literal value)
  | part => .error (.unexpected part)

def toStatement : Part → Reading Statement
  | statement value => .ok value
  | part => .error (.unexpected part)

/-- The only part. Newlines are not counted, here and in every production. -/
def one (parts : List Part) : Reading Part :=
  match strip parts with
  | [part] => .ok part
  | kept => .error (.childCount 1 kept.length)

/-- The only two parts. -/
def two (parts : List Part) : Reading (Part × Part) :=
  match strip parts with
  | [first, second] => .ok (first, second)
  | kept => .error (.childCount 2 kept.length)

/-- The kind of the only part, a token. -/
def onlyToken (parts : List Part) : Reading Kind := do
  match ← one parts with
  | token leaf => return leaf.kind
  | part => throw (.unexpected part)

def ofStart (parts : List Part) : Reading Part :=
  match (strip parts).getLast? with
  | none => .ok (document ⟨[]⟩)
  | some last =>
    match last, (strip parts).dropLast with
    | body statements, [] => .ok (document ⟨statements⟩)
    | part, _ => .error (.unexpected part)

def ofBody (parts : List Part) : Reading Part := do
  return body (← (strip parts).mapM toStatement)

def ofAttr (parts : List Part) : Reading Part := do
  let (key, value) ← two parts
  match key with
  | name key => return statement (.assign key (← value.toExpression))
  | part => throw (.unexpected part)

/-- A label of a block: a bare name or a string. -/
def toLabel : Part → Reading Expression
  | name label => .ok (.identifier label)
  | primitive (.string value) => .ok (.literal (.string value))
  | part => .error (.unexpected part)

/-- A block without a body part, which ends with its name or a label, gets an empty one. -/
def withBody (parts : List Part) : List Part :=
  match parts.getLast? with
  | some (name _) | some (primitive _) => parts ++ [body []]
  | _ => parts

def ofBlock (parts : List Part) : Reading Part :=
  match withBody (strip parts) with
  | first :: second :: rest =>
    match (second :: rest).getLast?, first with
    | some (body statements), name title => do
      let labels ← (second :: rest).dropLast.mapM toLabel
      return statement (.block title labels statements)
    | some (body _), part => .error (.unexpected part)
    | _, _ => .error .noBody
  | _ => .error .incompleteBlock

def ofIdentifier (parts : List Part) : Reading Part := do
  match ← onlyToken parts with
  | .ident value => return name value
  | kind => throw (.wrongToken "identifier" kind)

/-- A name where a value is wanted: a keyword stands for a literal, any other name for itself. -/
def ofName (word : String) : Expression :=
  if word = "true" then .literal (.bool true)
  else if word = "false" then .literal (.bool false)
  else if word = "null" then .literal .null
  else .identifier word

def ofTerm (parts : List Part) : Reading Part := do
  match ← one parts with
  | name word => return expression (ofName word)
  | part => return expression (← part.toExpression)

def ofInt (parts : List Part) : Reading Part := do
  match ← onlyToken parts with
  | .int value => return expression (.literal (.int value))
  | kind => throw (.wrongToken "int" kind)

def ofFloat (parts : List Part) : Reading Part := do
  match ← onlyToken parts with
  | .float value => return expression (.literal (.float value))
  | kind => throw (.wrongToken "float" kind)

def ofString (parts : List Part) : Reading Part := do
  match ← onlyToken parts with
  | .string value => return primitive (.string value)
  | kind => throw (.wrongToken "string" kind)

def ofTuple (parts : List Part) : Reading Part := do
  return expression (.array (← (strip parts).mapM toExpression))

/-- An element of an object as key and value. -/
def toElement : Part → Reading (String × Expression)
  | element key value => .ok (key, value)
  | part => .error (.unexpected part)

/-- A key that is given again keeps its first place and takes the last value. -/
def ofObject (parts : List Part) : Reading Part := do
  return expression (.object (Fields.ofList (← (strip parts).mapM toElement)))

def toKey : Part → Reading String
  | name key => .ok key
  | primitive (.string key) => .ok key
  | part => .error (.unexpected part)

def ofObjectElement (parts : List Part) : Reading Part := do
  let (key, value) ← two parts
  let key ← key.toKey
  return element key (← value.toExpression)

def ofCall (parts : List Part) : Reading Part :=
  match strip parts with
  | [] => .error .noFunction
  | [name function] => .ok (expression (.call function []))
  | [name function, arguments values] => .ok (expression (.call function values))
  | name _ :: arguments _ :: extra :: _ => .error (.unexpected extra)
  | name _ :: part :: _ => .error (.unexpected part)
  | part :: _ => .error (.unexpected part)

def ofArguments (parts : List Part) : Reading Part := do
  return arguments (← (strip parts).mapM toExpression)

def ofGetAttr (parts : List Part) : Reading Part := do
  match ← one parts with
  | name attr => return access (.attr attr)
  | part => throw (.unexpected part)

def ofIndex (parts : List Part) : Reading Part := do
  match ← one parts with
  | expression (.literal value) => return access (.index value)
  | primitive value => return access (.index value)
  | part => throw (.unexpected part)

/-- A splat has no children. -/
def ofSplat (step : Access) (parts : List Part) : Reading Part :=
  match strip parts with
  | [] => .ok (access step)
  | kept => .error (.childCount 0 kept.length)

/-- A term and the step that the production allows. -/
def ofAccess (wanted : Expression → Access → Option Expression) (parts : List Part) :
    Reading Part := do
  let (on, step) ← two parts
  let on ← on.toExpression
  match step with
  | access taken =>
    match wanted on taken with
    | some value => return expression value
    | none => throw (.unexpected (access taken))
  | part => throw (.unexpected part)

/-- The operator of a token. -/
def unaryOperator? (kind : Kind) : Option UnaryOperator :=
  kind.symbol? >>= UnaryOperator.ofSymbol?

def binaryOperator? (kind : Kind) : Option BinaryOperator :=
  kind.symbol? >>= BinaryOperator.ofSymbol?

def toUnaryOperator : Part → Reading UnaryOperator
  | token leaf =>
    match unaryOperator? leaf.kind with
    | some op => .ok op
    | none => .error (.unexpected (token leaf))
  | part => .error (.unexpected part)

def ofUnary (parts : List Part) : Reading Part := do
  let (op, operand) ← two parts
  let op ← op.toUnaryOperator
  return expression (.unary op (← operand.toExpression))

def ofBinary (parts : List Part) : Reading Part := do
  let (left, rest) ← two parts
  match rest with
  | operation op right => return expression (.binary op (← left.toExpression) right)
  | part => throw (.unexpected part)

def ofBinaryTerm (parts : List Part) : Reading Part := do
  let (op, right) ← two parts
  match op with
  | operator sign => return operation sign (← right.toExpression)
  | part => throw (.unexpected part)

def ofBinaryOperator (parts : List Part) : Reading Part := do
  let kind ← onlyToken parts
  match binaryOperator? kind with
  | some op => return operator op
  | none => throw (.noOperator kind)

def getAttr? (on : Expression) : Access → Option Expression
  | .attr key => some (.getAttr on key)
  | _ => none

def getIndex? (on : Expression) : Access → Option Expression
  | .index value => some (.getIndex on value)
  | _ => none

def attrSplat? (on : Expression) : Access → Option Expression
  | .attrSplat => some (.attrSplat on)
  | _ => none

def fullSplat? (on : Expression) : Access → Option Expression
  | .fullSplat => some (.indexSplat on)
  | _ => none

/-- What a production stands for, given the parts of its children. -/
def ofRule : Rule → List Part → Reading Part
  | .newLines, _ => .ok newline
  | .start, parts => ofStart parts
  | .body, parts => ofBody parts
  | .attr, parts => ofAttr parts
  | .block, parts => ofBlock parts
  | .identifier, parts => ofIdentifier parts
  | .term, parts => ofTerm parts
  | .int, parts => ofInt parts
  | .float, parts => ofFloat parts
  | .string, parts => ofString parts
  | .tuple, parts => ofTuple parts
  | .object, parts => ofObject parts
  | .objectElement, parts => ofObjectElement parts
  | .call, parts => ofCall parts
  | .arguments, parts => ofArguments parts
  | .getAttr, parts => ofGetAttr parts
  | .index, parts => ofIndex parts
  | .attrSplat, parts => ofSplat .attrSplat parts
  | .fullSplat, parts => ofSplat .fullSplat parts
  | .getAttrTerm, parts => ofAccess getAttr? parts
  | .indexTerm, parts => ofAccess getIndex? parts
  | .attrSplatTerm, parts => ofAccess attrSplat? parts
  | .fullSplatTerm, parts => ofAccess fullSplat? parts
  | .unary, parts => ofUnary parts
  | .binary, parts => ofBinary parts
  | .binaryTerm, parts => ofBinaryTerm parts
  | .binaryOperator, parts => ofBinaryOperator parts

/-- The part of a node from the parts of its children. -/
def ofNode (rule : Rule) (line : Nat) (parts : List Part) : Except Malformed Part :=
  match ofRule rule parts with
  | .ok part => .ok part
  | .error flaw => .error ⟨rule, line, flaw⟩

/-- The part that a tree stands for, from its leaves up. -/
def ofTree (tree : Tree) : Except Malformed Part :=
  tree.foldM (fun token => .ok (.token token)) ofNode

end Part

end ConfigLang
