import ConfigLang.Proofs.Grammar
/-!
The height of a tree as a sum over its levels. The walk that measures it keeps a worklist; the
equations here follow the tree.
-/

set_option autoImplicit false

namespace ConfigLang.Tree

mutual

/-- The levels of a tree, by recursion on it. -/
def levels : Tree → Nat
  | leaf _ => 1
  | node _ _ children => 1 + levelsAll children

/-- The levels of the highest of several trees. -/
def levelsAll : List Tree → Nat
  | [] => 0
  | child :: rest => max (levels child) (levelsAll rest)

end

/-- The deepest level that pending trees reach, each from the level that it is on. -/
def reach : List (Tree × Nat) → Nat
  | [] => 0
  | (tree, level) :: pending => max (level + tree.levels - 1) (reach pending)

theorem reach_append (first second : List (Tree × Nat)) :
    reach (first ++ second) = max (reach first) (reach second) := by
  induction first with
  | nil => rw [List.nil_append, reach, Nat.zero_max]
  | cons pending first ih =>
      obtain ⟨tree, level⟩ := pending
      rw [List.cons_append, reach, reach, ih, Nat.max_assoc]

theorem reach_onLevel (level : Nat) (trees : List Tree) :
    max level (reach (onLevel (level + 1) trees)) = level + levelsAll trees := by
  induction trees with
  | nil => simp [onLevel, reach, levelsAll]
  | cons tree trees ih =>
      have split : onLevel (level + 1) (tree :: trees) =
          (tree, level + 1) :: onLevel (level + 1) trees := rfl
      rw [split, reach, levelsAll]
      omega

/-- What the walk finds is what it had found or what its pending trees reach. -/
theorem deepest_eq (reached : Nat) (pending : List (Tree × Nat)) :
    deepest reached pending = max reached (reach pending) := by
  induction reached, pending using deepest.induct with
  | case1 reached => rw [deepest, reach, Nat.max_zero]
  | case2 reached token level pending ih =>
      rw [deepest, ih, reach, levels]
      omega
  | case3 reached rule line children level pending ih =>
      have children := reach_onLevel level children
      rw [deepest, ih, reach_append, reach, levels]
      omega

theorem height_eq (tree : Tree) : tree.height = tree.levels := by
  rw [height, deepest_eq, reach, reach]
  omega

/-- The height of the highest of several trees. -/
def highest (trees : List Tree) : Nat :=
  (trees.map height).foldr max 0

@[simp] theorem highest_nil : highest [] = 0 := rfl

@[simp] theorem highest_cons (tree : Tree) (trees : List Tree) :
    highest (tree :: trees) = max tree.height (highest trees) := rfl

@[simp] theorem highest_append (first second : List Tree) :
    highest (first ++ second) = max (highest first) (highest second) := by
  induction first with
  | nil => rw [List.nil_append, highest_nil, Nat.zero_max]
  | cons tree first ih => rw [List.cons_append, highest_cons, highest_cons, ih, Nat.max_assoc]

theorem levelsAll_eq (trees : List Tree) : levelsAll trees = highest trees := by
  induction trees with
  | nil => rfl
  | cons tree trees ih => rw [levelsAll, highest_cons, height_eq, ih]

@[simp] theorem height_leaf (token : Token) : (leaf token).height = 1 := by
  rw [height_eq, levels]

@[simp] theorem height_node (rule : Rule) (line : Nat) (children : List Tree) :
    (node rule line children).height = 1 + highest children := by
  rw [height_eq, levels, levelsAll_eq]

/-! ### Trees of the grammar -/

theorem height_production (rule : Rule) (token : Token) : (Grammar.leaf rule token).height = 2 := by
  simp [Grammar.leaf]

theorem highest_newLines (lines : List Token) : highest (Grammar.newLines lines) ≤ 2 := by
  have leaves : ∀ tokens : List Token, highest (tokens.map leaf) ≤ 1 := by
    intro tokens
    induction tokens with
    | nil => exact Nat.zero_le 1
    | cons token tokens ih =>
        rw [List.map_cons, highest_cons, height_leaf]
        omega
  cases lines with
  | nil => exact Nat.zero_le 2
  | cons line lines =>
      have low := leaves (line :: lines)
      rw [Grammar.newLines, highest_cons, height_node, highest_nil]
      omega

theorem height_project (line : Nat) (term : Tree) (step : Projection) :
    term.height + 2 ≤ (project line term step).height := by
  simp only [project, height_node, highest_cons, highest_nil]
  omega

theorem highest_body_le (line : Nat) (trees : List Tree) :
    highest (Tree.body line trees) ≤ 1 + highest trees := by
  unfold Tree.body
  split
  · rw [highest_cons, height_node, highest_nil]
    omega
  · omega

theorem height_document_le (line : Nat) (trees : List Tree) :
    (Grammar.document line trees).height ≤ 2 + highest trees := by
  rw [Grammar.document, height_node]
  split
  · rw [highest_cons, height_node, highest_nil]
    omega
  · rw [highest_nil]
    omega

end ConfigLang.Tree
