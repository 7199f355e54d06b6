import ConfigLang.Tree.Statement
/-!
The grammar as a parser with a cursor. The list of tokens ends with an end token and is never cut:
the parser keeps the index of the token ahead, sticks to the last one, and counts how deep it is
nested. It logs where its cursor goes and how each procedure leaves it. Whatever repeats runs on a
clock, and a parser that never came to an end would run out of any.
-/

set_option autoImplicit false

namespace ConfigLang

/-- The procedures of the grammar that read tokens. -/
inductive Procedure where
  | statement
  | attr
  | block
  | labelledBlock
  | expression
  | operation
  | term
  | primary
  | tuple
  | object
  | objectElement
  | call
  | identifier
  | string
  | int
  | newLines
deriving DecidableEq, Repr

/-- Where a parser stands in its tokens, and how deep it is nested. -/
structure Cursor where
  position : Nat
  depth : Nat
deriving DecidableEq, Repr

/-- What a parser logs: where the cursor has moved to, and where a procedure began and ended. -/
inductive Event where
  | moved (position : Nat)
  | returned (procedure : Procedure) (entry exit : Cursor) (succeeded : Bool)
deriving DecidableEq, Repr

/-- Where an event has moved the cursor to. -/
def Event.moved? : Event → Option Nat
  | .moved position => some position
  | .returned .. => none

namespace Parser

/-- The cursor, and the events so far with the latest at the front. -/
structure State extends Cursor where
  events : List Event

namespace State

def start : State := ⟨⟨0, 0⟩, []⟩

/-- Where the cursor has been since the start, the latest position at the front. -/
def path (state : State) : List Nat :=
  state.events.filterMap Event.moved?

def log (event : Event) (state : State) : State :=
  { state with events := event :: state.events }

def moveTo (position : Nat) (state : State) : State :=
  { state with position, events := .moved position :: state.events }

def deeper (state : State) : State :=
  { state with depth := state.depth + 1 }

def shallower (state : State) : State :=
  { state with depth := state.depth - 1 }

end State

/-- How a run of a parser ends. It may also look at an index where no token is, or still be running
when its clock is spent. -/
inductive Ending (α : Type) where
  | done (value : α) (state : State)
  | failed (fault : Fault) (state : State)
  | outside
  | spent

/-- The same ending after a change of the state, which may depend on the success. -/
def Ending.leaving {α : Type} (leave : Bool → State → State) : Ending α → Ending α
  | .done value state => .done value (leave true state)
  | .failed fault state => .failed fault (leave false state)
  | .outside => .outside
  | .spent => .spent

end Parser

/-- A parser of a list of tokens. -/
def Parser (α : Type) : Type :=
  List Token → Parser.State → Parser.Ending α

namespace Parser

variable {α β : Type}

protected def pure (value : α) : Parser α :=
  fun _ state => .done value state

protected def bind (first : Parser α) (next : α → Parser β) : Parser β :=
  fun tokens state =>
    match first tokens state with
    | .done value state => next value tokens state
    | .failed fault state => .failed fault state
    | .outside => .outside
    | .spent => .spent

instance : Monad Parser where
  pure := Parser.pure
  bind := Parser.bind

theorem bind_of_done {first : Parser α} {next : α → Parser β} {tokens : List Token}
    {state exit : State} {value : α} (run : first tokens state = .done value exit) :
    (first >>= next) tokens state = next value tokens exit := by
  change Parser.bind first next tokens state = _
  unfold Parser.bind
  rw [run]

def spent : Parser α :=
  fun _ _ => .spent

/-- The token ahead. -/
def peek : Parser Token :=
  fun tokens state =>
    match tokens[state.position]? with
    | some token => .done token state
    | none => .outside

/-- Whether there is a token of this kind after the one ahead. -/
def nextIs (kind : Kind) : Parser Bool :=
  fun tokens state => .done (tokens[state.position + 1]?.any (·.kind = kind)) state

def position : Parser Nat :=
  fun _ state => .done state.position state

/-- Moves the cursor on, unless the token ahead is the last. -/
def step : Parser Unit :=
  fun tokens state =>
    let next := state.position + 1
    .done () (if next < tokens.length then state.moveTo next else state)

/-- Takes the token ahead. -/
def advance : Parser Token := do
  let token ← peek
  step
  return token

/-- Fails at a place. -/
def failAt (place : Position) (cause : Cause) : Parser α :=
  fun _ state => .failed ⟨place, cause⟩ state

/-- Fails at the token ahead, with a cause that may tell its kind. -/
def failWith (cause : Kind → Cause) : Parser α := do
  let ahead ← peek
  failAt ahead.place (cause ahead.kind)

def unexpected (wanted : Wanted) : Parser α :=
  failWith (.unexpected wanted)

def tooDeep : Parser α :=
  failWith fun _ => .nestedTooDeep

/-- Whether the token ahead is of this kind. -/
def sees (kind : Kind) : Parser Bool := do
  return (← peek).kind = kind

/-- Takes a token of this kind if it is the one ahead. -/
def accept (kind : Kind) : Parser Bool := do
  if ← sees kind then
    let _ ← advance
    return true
  else return false

/-- Takes a token of this kind, which must be the one ahead. -/
def expect (kind : Kind) : Parser Token := do
  if ← sees kind then advance else failWith (.missing kind)

/-- Logs where a procedure begins and ends. -/
def recorded (procedure : Procedure) (parser : Parser α) : Parser α :=
  fun tokens entry =>
    (parser tokens entry).leaving fun succeeded exit =>
      exit.log (.returned procedure entry.toCursor exit.toCursor succeeded)

/-- Runs a parser one level deeper, and fails where that is too deep. -/
def nested (parser : Parser α) : Parser α :=
  fun tokens entry =>
    if Tree.maxNesting ≤ entry.depth then tooDeep tokens entry
    else (parser tokens entry.deeper).leaving fun _ exit => exit.shallower

/-- Goes on also where a parser fails, with the fault. -/
def attempt (parser : Parser α) : Parser (Except Fault α) :=
  fun tokens state =>
    match parser tokens state with
    | .done value state => .done (.ok value) state
    | .failed fault state => .done (.error fault) state
    | .outside => .outside
    | .spent => .spent

/-! ### Leaves -/

/-- A production that is one token. -/
def single (rule : Rule) : Parser Tree := do
  let token ← advance
  return .node rule token.place.line [.leaf token]

def string : Parser Tree :=
  recorded .string (single .string)

def int : Parser Tree :=
  recorded .int (single .int)

/-- A name. The token ahead is taken also where it is none. -/
def identifier : Parser Tree :=
  recorded .identifier do
    let token ← advance
    match token.kind with
    | .ident _ => return .node .identifier token.place.line [.leaf token]
    | _ => failAt token.place .noIdentifier

/-- The line feeds ahead. -/
def lineFeeds : Nat → Parser (List Token)
  | 0 => spent
  | clock + 1 => do
    if ← sees .newline then
      let first ← advance
      let rest ← lineFeeds clock
      return first :: rest
    else return []

/-- The line feeds ahead as one production, or nothing. -/
def newLines (clock : Nat) : Parser (List Tree) :=
  recorded .newLines do
    let first ← peek
    let feeds ← lineFeeds clock
    if feeds.isEmpty then return []
    else return [.node .newLines first.place.line (feeds.map .leaf)]

/-! ### Expressions -/

/-- The elements of a tuple up to its closing bracket. -/
def tupleItems (expression : Parser Tree) : Nat → Parser (List Tree)
  | 0 => spent
  | clock + 1 => do
    let lead ← newLines clock
    if ← sees .rightBracket then return lead
    let value ← expression
    let trail ← newLines clock
    if ← accept .comma then
      let others ← tupleItems expression clock
      return lead ++ value :: trail ++ others
    else return lead ++ value :: trail

def tuple (clock : Nat) (expression : Parser Tree) : Parser Tree :=
  recorded .tuple do
    let opening ← expect .leftBracket
    let items ← tupleItems expression clock
    let _ ← expect .rightBracket
    return .node .tuple opening.place.line items

/-- The key of an object element, by the kind of the token ahead. -/
def objectKey : Kind → Parser Tree
  | .ident _ => identifier
  | .string _ => string
  | _ => unexpected .objectKey

/-- The sign between key and value. -/
def objectAssignment : Parser Unit := do
  let ahead ← peek
  if ahead.kind = .assign ∨ ahead.kind = .colon then
    let _ ← advance
  else unexpected .objectAssignment

/-- A key, `=` or `:`, and the value. -/
def objectElement (expression : Parser Tree) : Parser Tree :=
  recorded .objectElement do
    let first ← peek
    let key ← objectKey first.kind
    objectAssignment
    let value ← expression
    return .node .objectElement first.place.line [key, value]

/-- The elements of an object up to its closing brace. -/
def objectItems (expression : Parser Tree) : Nat → Parser (List Tree)
  | 0 => spent
  | clock + 1 => do
    let ahead ← peek
    if ahead.kind = .rightBrace ∨ ahead.kind = .eof then return []
    let element ← objectElement expression
    let comma ← accept .comma
    let lines ← newLines clock
    if comma || !lines.isEmpty then
      let others ← objectItems expression clock
      return element :: lines ++ others
    else return element :: lines

def object (clock : Nat) (expression : Parser Tree) : Parser Tree :=
  recorded .object do
    let opening ← expect .leftBrace
    let lead ← newLines clock
    let items ← objectItems expression clock
    let _ ← expect .rightBrace
    return .node .object opening.place.line (lead ++ items)

/-- The arguments of a call, at least one, up to the closing parenthesis. -/
def callItems (expression : Parser Tree) : Nat → Parser (List Tree)
  | 0 => spent
  | clock + 1 => do
    let value ← expression
    let trail ← newLines clock
    if ← accept .comma then
      let lead ← newLines clock
      if ← sees .rightParen then return value :: trail ++ lead
      let others ← callItems expression clock
      return value :: trail ++ lead ++ others
    else return value :: trail

/-- The arguments of a call as one production, or nothing if there are none. -/
def callArguments (clock : Nat) (expression : Parser Tree) : Parser (List Tree) := do
  let ahead ← peek
  if ahead.kind = .rightParen then return []
  let items ← callItems expression clock
  return [.node .arguments ahead.place.line items]

/-- A name and its arguments in parentheses. -/
def call (clock : Nat) (expression : Parser Tree) : Parser Tree :=
  recorded .call do
    let first ← peek
    let name ← identifier
    let _ ← expect .leftParen
    let lead ← newLines clock
    let arguments ← callArguments clock expression
    let _ ← expect .rightParen
    return .node .call first.place.line (name :: lead ++ arguments)

/-- An expression in parentheses. -/
def grouped (clock : Nat) (expression : Parser Tree) : Parser (List Tree) := do
  let _ ← advance
  let lead ← newLines clock
  let value ← expression
  let trail ← newLines clock
  let _ ← expect .rightParen
  return lead ++ value :: trail

/-- The tree as the only child. -/
def alone (parser : Parser Tree) : Parser (List Tree) := do
  let tree ← parser
  return [tree]

/-- A name, or a call if a parenthesis follows it. -/
def named (clock : Nat) (expression : Parser Tree) : Parser (List Tree) := do
  if ← nextIs .leftParen then alone (call clock expression) else alone identifier

/-- The children of a term without projections, by the kind of the token ahead. -/
def primaryItems (clock : Nat) (expression : Parser Tree) : Kind → Parser (List Tree)
  | .int _ => alone int
  | .float _ => alone (single .float)
  | .string _ => alone string
  | .leftBracket => alone (tuple clock expression)
  | .leftBrace => alone (object clock expression)
  | .leftParen => grouped clock expression
  | .ident _ => named clock expression
  | _ => unexpected .expression

/-- A term without projections. -/
def primary (clock : Nat) (expression : Parser Tree) : Parser Tree :=
  recorded .primary do
    let first ← peek
    let children ← primaryItems clock expression first.kind
    return .node .term first.place.line children

/-- What stands behind the dot of a step. -/
def member (line : Nat) : Kind → Parser Tree.Projection
  | .star => do
    let _ ← advance
    return ⟨.attrSplatTerm, .node .attrSplat line []⟩
  | .int _ => do
    let index ← int
    return ⟨.indexTerm, .node .index line [index]⟩
  | _ => do
    let name ← identifier
    return ⟨.getAttrTerm, .node .getAttr line [name]⟩

/-- A step behind a dot. -/
def dotProjection : Parser Tree.Projection := do
  let dot ← advance
  let ahead ← peek
  member dot.place.line ahead.kind

/-- What stands between the brackets of a step. -/
def subscript (line : Nat) : Kind → Parser Tree.Projection
  | .star => do
    let _ ← advance
    return ⟨.fullSplatTerm, .node .fullSplat line []⟩
  | .int _ => do
    let index ← int
    return ⟨.indexTerm, .node .index line [index]⟩
  | .string _ => do
    let index ← string
    return ⟨.indexTerm, .node .index line [index]⟩
  | _ => unexpected .subscript

/-- A step in brackets. -/
def bracketProjection : Parser Tree.Projection := do
  let opening ← advance
  let ahead ← peek
  let projection ← subscript opening.place.line ahead.kind
  let _ ← expect .rightBracket
  return projection

/-- A step behind a dot or in brackets. -/
def projection (ahead : Kind) : Parser Tree.Projection :=
  if ahead = .dot then dotProjection else bracketProjection

/-- The steps after a term of this height. -/
def projections (line : Nat) : Nat → Nat → Tree → Parser Tree
  | 0, _, _ => spent
  | clock + 1, height, term => do
    let ahead ← peek
    if ahead.kind = .dot ∨ ahead.kind = .leftBracket then
      if Tree.maxTermHeight < height + 2 then tooDeep
      else
        let step ← projection ahead.kind
        projections line clock (height + 2) (Tree.project line term step)
    else return term

/-- A primary term and the steps after it. -/
def term (clock : Nat) (expression : Parser Tree) : Parser Tree :=
  recorded .term do
    let first ← peek
    let start ← primary clock expression
    projections first.place.line clock start.height start

/-- A term with perhaps one sign before it. -/
def operand (clock : Nat) (expression : Parser Tree) : Parser Tree := do
  let first ← peek
  if first.kind = .minus ∨ first.kind = .bang then
    let sign ← advance
    let value ← term clock expression
    return .node .unary first.place.line [.leaf sign, value]
  else term clock expression

/-- An operand, and perhaps an operator with a whole expression on its right. -/
def operation (clock : Nat) (expression : Parser Tree) : Parser Tree :=
  recorded .operation do
    let first ← peek
    let left ← operand clock expression
    let ahead ← peek
    if ahead.kind.isBinaryOperator then
      let sign ← advance
      let lines ← newLines clock
      let right ← expression
      let sign := .node .binaryOperator ahead.place.line [.leaf sign]
      let rest := .node .binaryTerm ahead.place.line (sign :: lines ++ [right])
      return .node .binary first.place.line [left, rest]
    else return left

def expression : Nat → Parser Tree
  | 0 => spent
  | clock + 1 => recorded .expression (nested (operation clock (expression clock)))

/-! ### Statements -/

/-- A name, `=` and a value. -/
def attr (expression : Parser Tree) : Parser Tree :=
  recorded .attr do
    let first ← peek
    let key ← identifier
    let _ ← expect .assign
    let value ← expression
    return .node .attr first.place.line [key, value]

/-- An attribute if `=` follows the token ahead, otherwise a block. -/
def clause (expression block : Parser Tree) : Parser Tree := do
  if ← nextIs .assign then attr expression else block

/-- One statement, and that a newline, the end or the closing token comes next. -/
def statement (expression block : Parser Tree) (closing : Option Kind) : Parser Tree :=
  recorded .statement do
    let tree ← clause expression block
    let ahead ← peek
    if ahead.kind = .newline ∨ ahead.kind = .eof ∨ some ahead.kind = closing then return tree
    else unexpected .endOfStatement

/-- A label if the token ahead is of a kind that labels a block, and those behind it. -/
def labelsAt (others : Parser (List Tree)) : Kind → Parser (List Tree)
  | .ident _ => do
    let label ← identifier
    let rest ← others
    return label :: rest
  | .string _ => do
    let label ← string
    let rest ← others
    return label :: rest
  | _ => return []

/-- The labels ahead. -/
def labels : Nat → Parser (List Tree)
  | 0 => spent
  | clock + 1 => do
    let ahead ← peek
    labelsAt (labels clock) ahead.kind

/-- The newlines ahead, or a statement where there are none. -/
def item (clock : Nat) (statement : Parser Tree) : Parser (List Tree) := do
  let lines ← newLines clock
  if lines.isEmpty then alone statement else return lines

/-- The statements and newlines of a block up to its closing brace. -/
def blockItems (statement : Parser Tree) : Nat → Parser (List Tree)
  | 0 => spent
  | clock + 1 => do
    let ahead ← peek
    if ahead.kind = .rightBrace ∨ ahead.kind = .eof then return []
    let item ← item clock statement
    let others ← blockItems statement clock
    return item ++ others

/-- A name, labels, and statements in braces. -/
def labelledBlock (clock : Nat) (expression block : Parser Tree) : Parser Tree :=
  recorded .labelledBlock do
    let first ← peek
    let name ← identifier
    let labels ← labels clock
    let _ ← expect .leftBrace
    let inside ← peek
    let items ← blockItems (statement expression block (some .rightBrace)) clock
    let _ ← expect .rightBrace
    return .node .block first.place.line (name :: labels ++ Tree.body inside.place.line items)

def block : Nat → Parser Tree
  | 0 => spent
  | clock + 1 => recorded .block (nested (labelledBlock clock (expression clock) (block clock)))

/-! ### Documents -/

/-- How many brackets are open behind a token that is skipped, or nothing if the skipping ends in
front of it. -/
def opened (depth : Nat) : Kind → Option Nat
  | .eof => none
  | .newline => if depth = 0 then none else some depth
  | .leftBrace | .leftBracket | .leftParen => some (depth + 1)
  | .rightBrace | .rightBracket | .rightParen => some (depth - 1)
  | _ => some depth

/-- Skips the tokens up to the next newline outside of the brackets skipped, or up to the end. -/
def recover : Nat → Nat → Parser Unit
  | 0, _ => spent
  | clock + 1, depth => do
    let ahead ← peek
    match opened depth ahead.kind with
    | none => return ()
    | some depth =>
      let _ ← advance
      recover clock depth

/-- A statement, or its fault after which the rest of its line is skipped. -/
def recovering (clock : Nat) (statement : Parser Tree) : Parser (Except Fault Tree) := do
  let read ← attempt statement
  match read with
  | .ok tree => return .ok tree
  | .error fault =>
    recover clock 0
    return .error fault

/-- Takes a token if the cursor is still where it was. -/
def unstick (before : Nat) : Parser Unit := do
  let now ← position
  if now = before then
    let _ ← advance

/-- The items of a document with a statement before them, or with its fault. -/
def put (read : Except Fault Tree) (items : Tree.Items) : Tree.Items :=
  match read with
  | .ok tree => items.add [tree]
  | .error fault => items.blame fault

/-- The newlines ahead or a statement, as what it adds to the items behind it. -/
def round (clock : Nat) (statement : Parser Tree) : Parser (Tree.Items → Tree.Items) := do
  let before ← position
  let lines ← newLines clock
  if lines.isEmpty then
    let read ← recovering clock statement
    unstick before
    return put read
  else return Tree.Items.add lines

/-- The items of a document up to an end token. -/
def items (statement : Parser Tree) : Nat → Parser Tree.Items
  | 0 => spent
  | clock + 1 => do
    let ahead ← peek
    if ahead.kind = .eof then return .empty
    let add ← round clock statement
    let others ← items statement clock
    return add others

/-- The tree of a document from its items, or all of their faults. -/
def conclude (line : Nat) (items : Tree.Items) : Except (List Fault) Tree :=
  if items.faults.isEmpty then
    let children := if items.trees.any Tree.isStatement then [.node .body line items.trees] else []
    .ok (.node .start line children)
  else .error items.faults

def document (clock : Nat) : Parser (Except (List Fault) Tree) := do
  let first ← peek
  let items ← items (statement (expression clock) (block clock) none) clock
  return conclude first.place.line items

/-- The tokens with an end token behind them if the last is none. -/
def withEnd (tokens : List Token) : List Token :=
  match tokens.getLast? with
  | none => [⟨.eof, .start⟩]
  | some last => if last.kind = .eof then tokens else tokens ++ [⟨.eof, last.place⟩]

/-- A run of the grammar on a list of tokens, from its beginning. -/
def run (clock : Nat) (tokens : List Token) : Ending (Except (List Fault) Tree) :=
  document clock (withEnd tokens) .start

end Parser

end ConfigLang
