import ConfigLang.Tree.Reader
/-!
Reading expressions. Operators group to the right, whatever they are; newlines may stand inside
brackets and after a binary operator.
-/

set_option autoImplicit false

namespace ConfigLang.Tree

open Reader

/-- The greatest height that projections may give to the tree of a term. -/
def maxTermHeight : Nat := 512

/-- The elements of a tuple up to its closing bracket, with a comma between two and perhaps one
after the last. -/
def tupleItems (expression : Reader Tree) : List Token → Reader (List Tree)
  | [] => pure []
  | _ :: bound => do
    let lead ← newLines
    if ← sees .rightBracket then return lead
    let value ← expression
    let trail ← newLines
    if ← accept .comma then
      let others ← tupleItems expression bound
      return lead ++ value :: trail ++ others
    else return lead ++ value :: trail

def tuple (expression : Reader Tree) : Reader Tree := do
  let opening ← expect .leftBracket
  let items ← repeating (tupleItems expression)
  let _ ← expect .rightBracket
  return .node .tuple opening.place.line items

/-- The key of an object element, by the kind of the token ahead. -/
def objectKey : Kind → Reader Tree
  | .ident _ => identifier
  | .string _ => single .string
  | _ => unexpected .objectKey

/-- The sign between key and value. -/
def objectAssignment : Reader Unit := do
  let ahead ← peek
  if ahead.kind = .assign ∨ ahead.kind = .colon then
    let _ ← advance
  else unexpected .objectAssignment

/-- A key, `=` or `:`, and the value. -/
def objectElement (expression : Reader Tree) : Reader Tree := do
  let first ← peek
  let key ← objectKey first.kind
  objectAssignment
  let value ← expression
  return .node .objectElement first.place.line [key, value]

/-- The elements of an object up to its closing brace, with a comma, newlines or both between
two. -/
def objectItems (expression : Reader Tree) : List Token → Reader (List Tree)
  | [] => pure []
  | _ :: bound => do
    let ahead ← peek
    if ahead.kind = .rightBrace ∨ ahead.kind = .eof then return []
    let element ← objectElement expression
    let comma ← accept .comma
    let lines ← newLines
    if comma || !lines.isEmpty then
      let others ← objectItems expression bound
      return element :: lines ++ others
    else return element :: lines

def object (expression : Reader Tree) : Reader Tree := do
  let opening ← expect .leftBrace
  let lead ← newLines
  let items ← repeating (objectItems expression)
  let _ ← expect .rightBrace
  return .node .object opening.place.line (lead ++ items)

/-- The arguments of a call, at least one, up to the closing parenthesis. -/
def callItems (expression : Reader Tree) : List Token → Reader (List Tree)
  | [] => pure []
  | _ :: bound => do
    let value ← expression
    let trail ← newLines
    if ← accept .comma then
      let lead ← newLines
      if ← sees .rightParen then return value :: trail ++ lead
      let others ← callItems expression bound
      return value :: trail ++ lead ++ others
    else return value :: trail

/-- The arguments of a call as one production, or nothing if there are none. -/
def callArguments (expression : Reader Tree) : Reader (List Tree) := do
  let ahead ← peek
  if ahead.kind = .rightParen then return []
  let items ← repeating (callItems expression)
  return [.node .arguments ahead.place.line items]

/-- A name and its arguments in parentheses. -/
def call (expression : Reader Tree) : Reader Tree := do
  let first ← peek
  let name ← identifier
  let _ ← expect .leftParen
  let lead ← newLines
  let arguments ← callArguments expression
  let _ ← expect .rightParen
  return .node .call first.place.line (name :: lead ++ arguments)

/-- An expression in parentheses, which leave no trace but the newlines inside. -/
def grouped (expression : Reader Tree) : Reader (List Tree) := do
  let _ ← advance
  let lead ← newLines
  let value ← expression
  let trail ← newLines
  let _ ← expect .rightParen
  return lead ++ value :: trail

/-- The tree as the only child. -/
def alone (reader : Reader Tree) : Reader (List Tree) := do
  let tree ← reader
  return [tree]

/-- A name, or a call if a parenthesis follows it. -/
def named (expression : Reader Tree) : Reader (List Tree) := do
  if (← peekSecond) = some .leftParen then alone (call expression) else alone identifier

/-- The children of a term without projections, by the kind of the token ahead. -/
def primaryItems (expression : Reader Tree) : Kind → Reader (List Tree)
  | .int _ => alone (single .int)
  | .float _ => alone (single .float)
  | .string _ => alone (single .string)
  | .leftBracket => alone (tuple expression)
  | .leftBrace => alone (object expression)
  | .leftParen => grouped expression
  | .ident _ => named expression
  | _ => unexpected .expression

/-- A term without projections. -/
def primary (expression : Reader Tree) : Reader Tree := do
  let first ← peek
  let children ← primaryItems expression first.kind
  return .node .term first.place.line children

/-- One step from a term to a part of it: the production of the step, and the production of the
term that takes it. -/
structure Projection where
  term : Rule
  step : Tree

/-- What stands behind the dot of a step: a splat, a number or a name. -/
def member (line : Nat) : Kind → Reader Projection
  | .star => do
    let _ ← advance
    return ⟨.attrSplatTerm, .node .attrSplat line []⟩
  | .int _ => do
    let index ← single .int
    return ⟨.indexTerm, .node .index line [index]⟩
  | _ => do
    let name ← identifier
    return ⟨.getAttrTerm, .node .getAttr line [name]⟩

/-- A step behind a dot. -/
def dotProjection : Reader Projection := do
  let dot ← advance
  let ahead ← peek
  member dot.place.line ahead.kind

/-- What stands between the brackets of a step: a splat or a literal index. -/
def subscript (line : Nat) : Kind → Reader Projection
  | .star => do
    let _ ← advance
    return ⟨.fullSplatTerm, .node .fullSplat line []⟩
  | .int _ => do
    let index ← single .int
    return ⟨.indexTerm, .node .index line [index]⟩
  | .string _ => do
    let index ← single .string
    return ⟨.indexTerm, .node .index line [index]⟩
  | _ => unexpected .subscript

/-- A step in brackets. -/
def bracketProjection : Reader Projection := do
  let opening ← advance
  let ahead ← peek
  let projection ← subscript opening.place.line ahead.kind
  let _ ← expect .rightBracket
  return projection

/-- A step behind a dot or in brackets. -/
def projection (ahead : Kind) : Reader Projection :=
  if ahead = .dot then dotProjection else bracketProjection

/-- The term after one more step, two levels higher than before. -/
def project (line : Nat) (term : Tree) (projection : Projection) : Tree :=
  .node .term line [.node projection.term line [term, projection.step]]

/-- The steps after a term of this height. A step that would make the tree too high is refused
before it is read. -/
def projections (line : Nat) : List Token → Nat → Tree → Reader Tree
  | [], _, term => pure term
  | _ :: bound, height, term => do
    let ahead ← peek
    if ahead.kind = .dot ∨ ahead.kind = .leftBracket then
      if maxTermHeight < height + 2 then tooDeep
      else
        let step ← projection ahead.kind
        projections line bound (height + 2) (project line term step)
    else return term

/-- A primary term and the steps after it. -/
def term (expression : Reader Tree) : Reader Tree := do
  let first ← peek
  let start ← primary expression
  repeating fun bound => projections first.place.line bound start.height start

/-- A term with perhaps one sign before it. -/
def operand (expression : Reader Tree) : Reader Tree := do
  let first ← peek
  if first.kind = .minus ∨ first.kind = .bang then
    let sign ← advance
    let value ← term expression
    return .node .unary first.place.line [.leaf sign, value]
  else term expression

/-- An operand, and perhaps an operator with a whole expression on its right. The reader given is
that of expressions one level deeper. -/
def operation (expression : Reader Tree) : Reader Tree := do
  let first ← peek
  let left ← operand expression
  let ahead ← peek
  if ahead.kind.isBinaryOperator then
    let sign ← advance
    let lines ← newLines
    let right ← expression
    let sign := .node .binaryOperator ahead.place.line [.leaf sign]
    let rest := .node .binaryTerm ahead.place.line (sign :: lines ++ [right])
    return .node .binary first.place.line [left, rest]
  else return left

/-- An expression in which at most so many levels are nested. -/
def expression : Nat → Reader Tree
  | 0 => tooDeep
  | depth + 1 => operation (expression depth)

end ConfigLang.Tree
