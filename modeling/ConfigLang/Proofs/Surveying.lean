import Mathlib.Computability.StateTransition
import ConfigLang.Proofs.Height
/-!
How a tree is measured without recursion. A survey keeps the trees still to be visited on a stack,
each with its level. A round takes the last of them and puts its children in its place, so the
branches before it wait while it is followed to its leaves. What the rounds keep is the deepest
level that has been visited or that a waiting tree reaches, and each round leaves one node fewer to
visit. So the survey comes to its end (`eval_start`), with the height that the recursion gives.
-/

set_option autoImplicit false

namespace ConfigLang

open StateTransition (Reaches eval)

namespace Tree

def children : Tree → List Tree
  | leaf _ => []
  | node _ _ trees => trees

theorem size_eq (tree : Tree) : tree.size = 1 + sizeAll tree.children := by
  cases tree with
  | leaf token => rfl
  | node rule line trees => rfl

theorem levels_eq (tree : Tree) : tree.levels = 1 + levelsAll tree.children := by
  cases tree with
  | leaf token => rw [levels, children, levelsAll]
  | node rule line trees => rw [levels, children]

theorem level_le_reach {entry : Tree × Nat} {pending : List (Tree × Nat)}
    (among : entry ∈ pending) : entry.2 ≤ reach pending := by
  induction pending with
  | nil => cases among
  | cons first pending ih =>
      have high := levels_eq first.1
      rw [reach]
      rcases List.mem_cons.mp among with rfl | behind
      · omega
      · exact Nat.le_trans (ih behind) (Nat.le_max_right _ _)

end Tree

/-- A survey of a tree between two rounds. -/
structure Survey where
  /-- The deepest level that has been visited. -/
  reached : Nat
  /-- The trees still to be visited, with their levels. The last one is next. -/
  pending : List (Tree × Nat)

namespace Survey

def start (tree : Tree) : Survey :=
  ⟨0, [(tree, 1)]⟩

/-- A round, unless nothing is left to be visited. -/
def next? (survey : Survey) : Option Survey :=
  survey.pending.getLast?.map fun entry =>
    ⟨max survey.reached entry.2,
      survey.pending.dropLast ++ Tree.onLevel (entry.2 + 1) entry.1.children⟩

theorem next?_concat (reached : Nat) (pending : List (Tree × Nat)) (entry : Tree × Nat) :
    next? ⟨reached, pending ++ [entry]⟩ =
      some ⟨max reached entry.2, pending ++ Tree.onLevel (entry.2 + 1) entry.1.children⟩ := by
  rw [next?, List.getLast?_concat, List.dropLast_concat, Option.map_some]

theorem next?_eq_none_iff {survey : Survey} : survey.next? = none ↔ survey.pending = [] := by
  rw [next?, Option.map_eq_none_iff, List.getLast?_eq_none_iff]

theorem exists_of_next? {survey next : Survey} (round : survey.next? = some next) :
    ∃ pending entry, survey = ⟨survey.reached, pending ++ [entry]⟩ ∧
      next = ⟨max survey.reached entry.2,
        pending ++ Tree.onLevel (entry.2 + 1) entry.1.children⟩ := by
  obtain ⟨reached, pending⟩ := survey
  rcases List.eq_nil_or_concat' pending with rfl | ⟨pending, entry, rfl⟩
  · cases round
  · rw [next?_concat] at round
    exact ⟨pending, entry, rfl, (Option.some.inj round).symm⟩

/-! ### What a round keeps -/

/-- The deepest level that is found from here on, by the walk that takes the first of the pending
trees first. -/
def found (survey : Survey) : Nat :=
  Tree.deepest survey.reached survey.pending

/-- The order in which trees are taken does not matter: each is found as deep as it reaches. -/
theorem found_eq (survey : Survey) :
    survey.found = max survey.reached (Tree.reach survey.pending) :=
  Tree.deepest_eq survey.reached survey.pending

/-- The nodes that are still to be visited. -/
def remaining (survey : Survey) : Nat :=
  Tree.sizeAll (survey.pending.map Prod.fst)

theorem found_next? {survey next : Survey} (round : survey.next? = some next) :
    next.found = survey.found := by
  obtain ⟨pending, entry, taken, rfl⟩ := exists_of_next? round
  have below := Tree.reach_onLevel entry.2 entry.1.children
  have high := entry.1.levels_eq
  rw [found_eq, found_eq, taken]
  simp only [Tree.reach_append, Tree.reach]
  omega

theorem remaining_next? {survey next : Survey} (round : survey.next? = some next) :
    next.remaining + 1 = survey.remaining := by
  obtain ⟨pending, entry, taken, rfl⟩ := exists_of_next? round
  have whole := entry.1.size_eq
  rw [taken]
  simp only [remaining, List.map_append, List.map_cons, List.map_nil, Tree.map_fst_onLevel,
    Tree.sizeAll_append, Tree.sizeAll_cons, Tree.sizeAll_nil]
  omega

/-! ### Whole runs -/

theorem found_of_reaches {first last : Survey} (rounds : Reaches next? first last) :
    last.found = first.found := by
  induction rounds with
  | refl => rfl
  | tail _ round ih => rw [found_next? round, ih]

theorem exists_end (survey : Survey) : ∃ reached, Reaches next? survey ⟨reached, []⟩ := by
  -- on the nodes that are left: a round leaves one fewer, however many trees it puts on the stack
  induction left : survey.remaining using Nat.strongRecOn generalizing survey with
  | ind left ih =>
      cases round : survey.next? with
      | none =>
          have nothing : survey.pending = [] := next?_eq_none_iff.mp round
          exact ⟨survey.reached, nothing ▸ .refl⟩
      | some next =>
          have fewer := remaining_next? round
          obtain ⟨reached, rounds⟩ := ih next.remaining (by omega) next rfl
          exact ⟨reached, .head round rounds⟩

/-- From wherever a survey stands it comes to its end, and reaches what is found from there. -/
theorem eval_eq (survey : Survey) : eval next? survey = Part.some ⟨survey.found, []⟩ := by
  obtain ⟨reached, rounds⟩ := survey.exists_end
  have kept : reached = survey.found := by
    rw [← found_of_reaches rounds, found_eq, Tree.reach, Nat.max_zero]
  rw [← kept]
  exact Part.eq_some_iff.mpr (StateTransition.mem_eval.mpr ⟨rounds, rfl⟩)

/-- The survey of a tree ends, whatever the tree, and has then reached the height that the recursion
gives. From every survey on the way the same height is found, and no level is counted that the tree
does not have. -/
theorem eval_start (tree : Tree) :
    eval next? (start tree) = Part.some ⟨tree.height, []⟩ ∧ tree.height = tree.levels ∧
      ∀ survey, Reaches next? (start tree) survey →
        survey.found = tree.height ∧
          survey.reached ≤ tree.height ∧ ∀ entry ∈ survey.pending, entry.2 ≤ tree.height := by
  refine ⟨eval_eq (start tree), tree.height_eq, fun survey rounds => ?_⟩
  have kept : survey.found = tree.height := found_of_reaches rounds
  have bound : tree.height = max survey.reached (Tree.reach survey.pending) := by
    rw [← kept, found_eq]
  refine ⟨kept, ?_, fun entry among => ?_⟩
  · rw [bound]
    exact Nat.le_max_left _ _
  · rw [bound]
    exact Nat.le_trans (Tree.level_le_reach among) (Nat.le_max_right _ _)

/-- While the second branch is followed the first one waits. -/
theorem eval_start_waiting :
    Reaches next?
        (start (.node .body 1 [.node .newLines 1 [], .node .attr 1 [.node .identifier 1 []]]))
        ⟨2, [(.node .newLines 1 [], 2), (.node .identifier 1 [], 3)]⟩ ∧
      found ⟨2, [(.node .newLines 1 [], 2), (.node .identifier 1 [], 3)]⟩ = 3 := by
  have rounds : Reaches next?
      (start (.node .body 1 [.node .newLines 1 [], .node .attr 1 [.node .identifier 1 []]]))
      ⟨2, [(.node .newLines 1 [], 2), (.node .identifier 1 [], 3)]⟩ :=
    .head rfl (.head rfl .refl)
  obtain ⟨_, same, always⟩ := eval_start
    (.node .body 1 [.node .newLines 1 [], .node .attr 1 [.node .identifier 1 []]])
  exact ⟨rounds, (always _ rounds).1.trans same⟩

end Survey

end ConfigLang
