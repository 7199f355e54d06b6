import ConfigLang.Tree
/-!
Walks over a tree: callbacks for its leaves and its nodes, made from the leaves up in the order of
the text. One walk has callbacks that do nothing but get listed.
-/

set_option autoImplicit false

namespace ConfigLang

/-- The callbacks of a fold. They go on from the state that the ones before them left, and leave a
state also where they fail. -/
structure Transformer (σ ε α : Type) where
  leaf : Token → ExceptT ε (StateM σ) α
  node : Rule → Nat → List α → ExceptT ε (StateM σ) α

namespace Transformer

variable {σ ε α : Type}

/-- Folds a tree from a state. -/
def transform (transformer : Transformer σ ε α) (tree : Tree) (state : σ) : Except ε α × σ :=
  (tree.foldM transformer.leaf transformer.node).run.run state

def transformAll (transformer : Transformer σ ε α) (trees : List Tree) (state : σ) :
    Except ε (List α) × σ :=
  (Tree.foldAllM transformer.leaf transformer.node trees).run.run state

end Transformer

/-- One step of a fold. -/
inductive Visit where
  | leaf (token : Token)
  | node (rule : Rule) (line : Nat) (children : Nat)
deriving DecidableEq, Repr

/-- The steps made, and whether the fold came to its end. -/
structure Walk where
  complete : Bool
  visits : List Visit
deriving DecidableEq, Repr

namespace Visit

/-- Lists one more step, which fails if it is the last one allowed. The list is in reverse. -/
def record (limit : Option Nat) (visit : Visit) : ExceptT Unit (StateM (List Visit)) Unit :=
  ExceptT.mk fun visits =>
    if limit = some (visits.length + 1) then (.error (), visit :: visits)
    else (.ok (), visit :: visits)

/-- Callbacks that list their steps. With a limit, the step of that number fails. -/
def recorder (limit : Option Nat) : Transformer (List Visit) Unit Unit where
  leaf token := record limit (.leaf token)
  node rule line outputs := record limit (.node rule line outputs.length)

end Visit

/-- Folds a tree with callbacks that do nothing but get listed. -/
def Tree.walk (limit : Option Nat) (tree : Tree) : Walk :=
  let ended := (Visit.recorder limit).transform tree []
  ⟨ended.1.isOk, ended.2.reverse⟩

end ConfigLang
