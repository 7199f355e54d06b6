import ConfigLang.Token
/-!
Concrete trees: every production of the grammar with its children in the order of the text, down
to the tokens. A tree of any shape is a value; only some are trees of a document.
-/

set_option autoImplicit false

namespace ConfigLang

/-- The productions of the grammar. -/
inductive Rule where
  | start
  | body
  | newLines
  | attr
  | block
  | identifier
  | term
  | int
  | float
  | string
  | tuple
  | object
  | objectElement
  | call
  | arguments
  | getAttr
  | getAttrTerm
  | index
  | indexTerm
  | attrSplat
  | attrSplatTerm
  | fullSplat
  | fullSplatTerm
  | unary
  | binary
  | binaryTerm
  | binaryOperator
deriving DecidableEq, Repr

namespace Rule

def name : Rule → String
  | start => "start"
  | body => "body"
  | newLines => "new_line_or_comment"
  | attr => "attribute"
  | block => "block"
  | identifier => "identifier"
  | term => "expr_term"
  | int => "int_lit"
  | float => "float_lit"
  | string => "string_lit"
  | tuple => "tuple"
  | object => "object"
  | objectElement => "object_elem"
  | call => "function_call"
  | arguments => "arguments"
  | getAttr => "get_attr"
  | getAttrTerm => "get_attr_expr_term"
  | index => "index"
  | indexTerm => "index_expr_term"
  | attrSplat => "attr_splat"
  | attrSplatTerm => "attr_splat_expr_term"
  | fullSplat => "full_splat"
  | fullSplatTerm => "full_splat_expr_term"
  | unary => "unary_op"
  | binary => "binary_op"
  | binaryTerm => "binary_term"
  | binaryOperator => "binary_operator"

def all : List Rule :=
  [start, body, newLines, attr, block, identifier, term, int, float, string, tuple, object,
    objectElement, call, arguments, getAttr, getAttrTerm, index, indexTerm, attrSplat,
    attrSplatTerm, fullSplat, fullSplatTerm, unary, binary, binaryTerm, binaryOperator]

def ofName? (name : String) : Option Rule :=
  all.find? fun rule => rule.name == name

end Rule

/-- A token, or a production with the line where it starts. -/
inductive Tree where
  | leaf (token : Token)
  | node (rule : Rule) (line : Nat) (children : List Tree)
deriving Repr

namespace Tree

def line : Tree → Nat
  | leaf token => token.place.line
  | node _ line _ => line

mutual

/-- How many nodes there are, tokens included. -/
def size : Tree → Nat
  | leaf _ => 1
  | node _ _ children => 1 + sizeAll children

def sizeAll : List Tree → Nat
  | [] => 0
  | child :: rest => size child + sizeAll rest

end

@[simp] theorem sizeAll_nil : sizeAll [] = 0 := rfl

@[simp] theorem sizeAll_cons (child : Tree) (rest : List Tree) :
    sizeAll (child :: rest) = child.size + sizeAll rest := rfl

theorem sizeAll_append (first second : List Tree) :
    sizeAll (first ++ second) = sizeAll first + sizeAll second := by
  induction first with
  | nil => simp
  | cons child rest ih => simp [ih, Nat.add_assoc]

/-- The trees with the level that they are on. -/
def onLevel (level : Nat) (trees : List Tree) : List (Tree × Nat) :=
  trees.map fun tree => (tree, level)

@[simp] theorem map_fst_onLevel (level : Nat) (trees : List Tree) :
    (onLevel level trees).map Prod.fst = trees := by
  simp only [onLevel, List.map_map, Function.comp_def, List.map_id_fun', id]

/-- The deepest level among the pending trees and what is below them. Each pending tree comes with
its own level, and its children are one level deeper. -/
def deepest (reached : Nat) : List (Tree × Nat) → Nat
  | [] => reached
  | (leaf _, level) :: pending => deepest (max reached level) pending
  | (node _ _ children, level) :: pending =>
    deepest (max reached level) (onLevel (level + 1) children ++ pending)
termination_by pending => sizeAll (pending.map Prod.fst)
decreasing_by
  · simp only [List.map_cons, sizeAll_cons, size]
    omega
  · simp only [List.map_cons, List.map_append, map_fst_onLevel, sizeAll_cons, sizeAll_append, size]
    omega

/-- The levels from a tree down to its deepest leaf. The trees still to be visited are kept in a
list, so that the height of the tree does not bound the walk. -/
def height (tree : Tree) : Nat :=
  deepest 0 [(tree, 1)]

mutual

/-- Folds a tree from the leaves up, in the order of the text. A production sees the results of
its children, and an effect that fails ends the walk. -/
def foldM {m : Type → Type} [Monad m] {α : Type} (leafStep : Token → m α)
    (nodeStep : Rule → Nat → List α → m α) : Tree → m α
  | leaf token => leafStep token
  | node rule line children => do
    let results ← foldAllM leafStep nodeStep children
    nodeStep rule line results

def foldAllM {m : Type → Type} [Monad m] {α : Type} (leafStep : Token → m α)
    (nodeStep : Rule → Nat → List α → m α) : List Tree → m (List α)
  | [] => pure []
  | child :: rest => do
    let result ← foldM leafStep nodeStep child
    let results ← foldAllM leafStep nodeStep rest
    pure (result :: results)

end

end Tree

end ConfigLang
