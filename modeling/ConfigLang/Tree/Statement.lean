import ConfigLang.Tree.Expression
/-!
Reading statements and whole documents. A faulty statement at the top is skipped up to the end of
its line, so that every faulty line is reported.
-/

set_option autoImplicit false

namespace ConfigLang.Tree

open Reader

/-- How deep expressions and blocks may be nested. -/
def maxNesting : Nat := 128

/-- A name, `=` and a value. -/
def attr (expression : Reader Tree) : Reader Tree := do
  let first ← peek
  let key ← identifier
  let _ ← expect .assign
  let value ← expression
  return .node .attr first.place.line [key, value]

/-- An attribute if `=` follows the token ahead, otherwise a block. -/
def clause (expression block : Reader Tree) : Reader Tree := do
  let second ← peekSecond
  if second = some .assign then attr expression else block

/-- One statement, and that a newline, the end or the closing token comes next. -/
def statement (expression block : Reader Tree) (closing : Option Kind) : Reader Tree := do
  let tree ← clause expression block
  let ahead ← peek
  if ahead.kind = .newline ∨ ahead.kind = .eof ∨ some ahead.kind = closing then return tree
  else unexpected .endOfStatement

/-- A name or a string that labels a block. -/
def label? (token : Token) : Option Tree :=
  match token.kind with
  | .ident _ => some (.node .identifier token.place.line [.leaf token])
  | .string _ => some (.node .string token.place.line [.leaf token])
  | _ => none

/-- The labels ahead. -/
def labels : Reader (List Tree) :=
  fun _ tokens =>
    .done ((tokens.takeWhile fun token => (label? token).isSome).filterMap label?)
      (tokens.dropWhile fun token => (label? token).isSome)

/-- Newlines or a statement, by the kind of the token ahead. -/
def item (expression block : Reader Tree) (closing : Option Kind) (ahead : Kind) :
    Reader (List Tree) :=
  if ahead = .newline then newLines else alone (statement expression block closing)

/-- The statements and newlines of a block up to its closing brace. -/
def blockItems (expression block : Reader Tree) : List Token → Reader (List Tree)
  | [] => pure []
  | _ :: bound => do
    let ahead ← peek
    if ahead.kind = .rightBrace ∨ ahead.kind = .eof then return []
    let item ← item expression block (some .rightBrace) ahead.kind
    let others ← blockItems expression block bound
    return item ++ others

def isStatement : Tree → Bool
  | .node .attr _ _ | .node .block _ _ => true
  | _ => false

/-- A body is a production of its own only if there is a statement in it. -/
def body (line : Nat) (items : List Tree) : List Tree :=
  if items.any isStatement then [.node .body line items] else items

/-- A name, labels, and statements in braces. The readers given are those one level deeper. -/
def labelledBlock (expression block : Reader Tree) : Reader Tree := do
  let first ← peek
  let name ← identifier
  let labels ← labels
  let _ ← expect .leftBrace
  let inside ← peek
  let items ← repeating (blockItems expression block)
  let _ ← expect .rightBrace
  return .node .block first.place.line (name :: labels ++ body inside.place.line items)

/-- A block in which at most so many levels are nested. -/
def block : Nat → Reader Tree
  | 0 => tooDeep
  | depth + 1 => labelledBlock (expression depth) (block depth)

/-- The tokens from the next newline on that stands in no bracket of those skipped, or from the
next end token on. -/
def recover (depth : Nat) : List Token → List Token
  | [] => []
  | token :: rest =>
    match token.kind with
    | .eof => token :: rest
    | .newline => if depth = 0 then token :: rest else recover depth rest
    | .leftBrace | .leftBracket | .leftParen => recover (depth + 1) rest
    | .rightBrace | .rightBracket | .rightParen => recover (depth - 1) rest
    | _ => recover depth rest

/-- What is at the top of a document: statements, newlines and faults. -/
structure Items where
  trees : List Tree
  faults : List Fault

namespace Items

def empty : Items := ⟨[], []⟩

def add (trees : List Tree) (items : Items) : Items :=
  { items with trees := trees ++ items.trees }

def blame (fault : Fault) (items : Items) : Items :=
  { items with faults := fault :: items.faults }

end Items

/-- Reads the items of a document up to the first end token. Each takes a token, so that a list as
long as the tokens bounds their number. -/
def items (stop : Position) : List Token → List Token → Items
  | [], _ => .empty
  | _ :: bound, tokens =>
    match tokens with
    | [] => .empty
    | token :: _ =>
      if token.kind = .eof then .empty
      else
        match item (expression maxNesting) (block maxNesting) none token.kind stop tokens with
        | .done trees rest => (items stop bound rest).add trees
        | .failed fault rest => (items stop bound (recover 0 rest)).blame fault

/-- The tokens before the end, and the place of the end. A list without an end token ends at its
last token. -/
def splitEnd (tokens : List Token) : List Token × Position :=
  match tokens.getLast? with
  | none => ([], .start)
  | some last => if last.kind = .eof then (tokens.dropLast, last.place) else (tokens, last.place)

/-- The tree of a document, or all of its faults. -/
def ofTokens (tokens : List Token) : Except (List Fault) Tree :=
  let (tokens, stop) := splitEnd tokens
  let items := items stop tokens tokens
  let line := (tokens.head?.getD ⟨.eof, stop⟩).place.line
  if items.faults.isEmpty then
    let children := if items.trees.any isStatement then [.node .body line items.trees] else []
    .ok (.node .start line children)
  else .error items.faults

end ConfigLang.Tree
