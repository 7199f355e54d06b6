import ConfigLang.Proofs.Height
import ConfigLang.Proofs.Soundness
/-!
How high the trees are that are read. Two limits keep them low: how deep expressions and blocks may
be nested, and how high steps may make a term. The loop that reads steps does not measure the term
but counts two levels for each step, and one of its steps may add three.
-/

set_option autoImplicit false

namespace ConfigLang

/-- The productions of a term together with the step that it takes. -/
def Rule.takesStep : Rule → Bool
  | getAttrTerm | indexTerm | attrSplatTerm | fullSplatTerm => true
  | _ => false

namespace Tree

open Reader

mutual

/-- The tree and all trees in it, each before those that are in it. -/
def subtrees : Tree → List Tree
  | leaf token => [leaf token]
  | node rule line children => node rule line children :: subtreesAll children

def subtreesAll : List Tree → List Tree
  | [] => []
  | child :: rest => subtrees child ++ subtreesAll rest

end

def takesStep : Tree → Bool
  | leaf _ => false
  | node rule _ _ => rule.takesStep

/-- Whether this is a term that came about by a step. -/
def isProjected : Tree → Bool
  | node rule _ [child] => rule = .term && child.takesStep
  | _ => false

/-- A tuple or an object with nothing in it, as a term. -/
inductive Hollow : Tree → Prop
  | mk {outer inner : Nat} {rule : Rule} (empty : rule = .tuple ∨ rule = .object) :
      Hollow (node .term outer [node rule inner []])

/-- Steps from a tuple or an object with nothing in it, the first of them to a name or an index.
That step is higher than what it starts from, so that it adds three levels. -/
inductive Overlooked : Tree → Prop
  | first {line : Nat} {term : Tree} {step : Projection} (hollow : Hollow term)
      (indexes : step.term = .getAttrTerm ∨ step.term = .indexTerm) :
      Overlooked (project line term step)
  | more {line : Nat} {term : Tree} {step : Projection} (overlooked : Overlooked term)
      (takes : step.term.takesStep = true) : Overlooked (project line term step)

/-- A term that came about by steps is within the limit, but for one level that was not counted. -/
def Fits (term : Tree) : Prop :=
  term.height ≤ maxTermHeight ∨ term.height = maxTermHeight + 1 ∧ Overlooked term

/-- The terms in a tree that came about by steps fit. -/
def Fitting (tree : Tree) : Prop :=
  ∀ inner ∈ tree.subtrees, inner.isProjected = true → Fits inner

def FittingAll (trees : List Tree) : Prop :=
  ∀ inner ∈ subtreesAll trees, inner.isProjected = true → Fits inner

/-- A tree up to this height, in which the terms that came about by steps fit. -/
structure Low (limit : Nat) (tree : Tree) : Prop where
  height : tree.height ≤ limit
  fits : Fitting tree

structure LowAll (limit : Nat) (trees : List Tree) : Prop where
  highest : highest trees ≤ limit
  fits : FittingAll trees

/-- The tree of an expression is more than a token, and not half of a term. -/
structure Whole (tree : Tree) : Prop where
  tall : 2 ≤ tree.height
  stepless : tree.takesStep = false

theorem one_le_height (tree : Tree) : 1 ≤ tree.height := by
  cases tree with
  | leaf token => exact Nat.le_of_eq (height_leaf token).symm
  | node rule line children =>
      rw [height_node]
      exact Nat.le_add_right 1 _

@[simp] theorem subtreesAll_append (trees others : List Tree) :
    subtreesAll (trees ++ others) = subtreesAll trees ++ subtreesAll others := by
  induction trees with
  | nil => rfl
  | cons tree trees ih =>
      rw [List.cons_append, subtreesAll, subtreesAll, ih, List.append_assoc]

section Low

variable {limit more line : Nat} {tree : Tree} {trees others : List Tree} {rule : Rule}

/-- A node fits if what is in it does, unless it came about by a step itself. -/
theorem fitting_node_iff : Fitting (node rule line trees) ↔
    ((node rule line trees).isProjected = true → Fits (node rule line trees)) ∧
      FittingAll trees := by
  rw [Fitting, subtrees, List.forall_mem_cons]
  rfl

@[simp] theorem fittingAll_nil : FittingAll [] := nofun

@[simp] theorem fittingAll_cons :
    FittingAll (tree :: trees) ↔ Fitting tree ∧ FittingAll trees :=
  List.forall_mem_append

@[simp] theorem fittingAll_append :
    FittingAll (trees ++ others) ↔ FittingAll trees ∧ FittingAll others := by
  rw [FittingAll, subtreesAll_append]
  exact List.forall_mem_append

theorem isProjected_of_ne (other : rule ≠ .term) :
    (node rule line trees).isProjected = false := by
  unfold isProjected
  split
  next same =>
    cases same
    rw [decide_eq_false other, Bool.false_and]
  next => rfl

theorem fitting_of_not_projected (other : (node rule line trees).isProjected = false) :
    Fitting (node rule line trees) ↔ FittingAll trees := by
  rw [fitting_node_iff, other]
  exact ⟨And.right, fun fits => ⟨nofun, fits⟩⟩

/-- The children of a tree that fits. -/
theorem Fitting.children (fits : Fitting (node rule line trees)) : FittingAll trees :=
  (fitting_node_iff.mp fits).2

@[simp] theorem fitting_leaf (token : Token) : Fitting (leaf token) := by
  intro inner member projected
  cases List.mem_singleton.mp member
  cases projected

theorem fittingAll_newLines (lines : List Token) : FittingAll (Grammar.newLines lines) := by
  have leaves : ∀ tokens : List Token, FittingAll (tokens.map leaf) := by
    intro tokens
    induction tokens with
    | nil => exact fittingAll_nil
    | cons token tokens ih => exact fittingAll_cons.mpr ⟨fitting_leaf token, ih⟩
  cases lines with
  | nil => exact fittingAll_nil
  | cons line lines =>
      have other : ∀ trees, (node .newLines line.place.line trees).isProjected = false :=
        fun _ => isProjected_of_ne nofun
      exact fittingAll_cons.mpr
        ⟨(fitting_of_not_projected (other _)).mpr (leaves _), fittingAll_nil⟩

mutual

theorem height_le_of_mem : ∀ (tree : Tree), ∀ inner ∈ tree.subtrees, inner.height ≤ tree.height
  | leaf token, inner, member => by
    cases List.mem_singleton.mp member
    exact Nat.le_refl _
  | node rule line children, inner, member => by
    rcases List.mem_cons.mp member with rfl | member
    · exact Nat.le_refl _
    · have below := height_le_of_memAll children inner member
      rw [height_node]
      omega

theorem height_le_of_memAll :
    ∀ (trees : List Tree), ∀ inner ∈ subtreesAll trees, inner.height ≤ highest trees
  | [], inner, member => by cases member
  | tree :: trees, inner, member => by
    rw [highest_cons]
    rcases List.mem_append.mp member with first | rest
    · exact Nat.le_trans (height_le_of_mem tree inner first) (Nat.le_max_left _ _)
    · exact Nat.le_trans (height_le_of_memAll trees inner rest) (Nat.le_max_right _ _)

end

/-- Everything fits in a tree that is itself within the limit of terms. -/
theorem fitting_of_height_le (low : tree.height ≤ maxTermHeight) : Fitting tree :=
  fun inner member _ => .inl (Nat.le_trans (height_le_of_mem tree inner member) low)

theorem Low.mono (low : Low limit tree) (atMost : limit ≤ more) : Low more tree :=
  ⟨Nat.le_trans low.height atMost, low.fits⟩

theorem LowAll.mono (low : LowAll limit trees) (atMost : limit ≤ more) : LowAll more trees :=
  ⟨Nat.le_trans low.highest atMost, low.fits⟩

theorem LowAll.nil : LowAll limit [] :=
  ⟨Nat.zero_le limit, fittingAll_nil⟩

theorem LowAll.cons (first : Low limit tree) (rest : LowAll limit trees) :
    LowAll limit (tree :: trees) where
  highest := by
    rw [highest_cons]
    exact Nat.max_le.mpr ⟨first.height, rest.highest⟩
  fits := fittingAll_cons.mpr ⟨first.fits, rest.fits⟩

theorem LowAll.append (first : LowAll limit trees) (second : LowAll limit others) :
    LowAll limit (trees ++ others) where
  highest := by
    rw [highest_append]
    exact Nat.max_le.mpr ⟨first.highest, second.highest⟩
  fits := fittingAll_append.mpr ⟨first.fits, second.fits⟩

/-- A node is a level higher than its children, and may itself be a term that fits. -/
theorem LowAll.node (low : LowAll limit trees)
    (fits : (Tree.node rule line trees).isProjected = true → Fits (Tree.node rule line trees)) :
    Low (limit + 1) (Tree.node rule line trees) where
  height := by
    have atMost := low.highest
    rw [height_node]
    omega
  fits := fitting_node_iff.mpr ⟨fits, low.fits⟩

theorem LowAll.production (low : LowAll limit trees) (rule : Rule) (line : Nat)
    (other : rule ≠ .term) : Low (limit + 1) (Tree.node rule line trees) := by
  refine low.node fun projected => ?_
  rw [isProjected_of_ne other] at projected
  cases projected

theorem low_leaf (token : Token) : Low 1 (leaf token) :=
  ⟨Nat.le_of_eq (height_leaf token), fitting_leaf token⟩

theorem low_production (rule : Rule) (token : Token) (other : rule ≠ .term) :
    Low 2 (Grammar.leaf rule token) :=
  (LowAll.cons (low_leaf token) .nil).production rule token.place.line other

theorem lowAll_newLines (lines : List Token) (room : 2 ≤ limit) :
    LowAll limit (Grammar.newLines lines) :=
  ⟨Nat.le_trans (highest_newLines lines) room, fittingAll_newLines lines⟩

end Low

/-! ### Collections -/

section Phrases

variable {limit : Nat} {Value Nested Item : Grammar.Phrase} {used : List Token} {tree : Tree}
  {trees : List Tree}

theorem items_low (low : ∀ ⦃used tree⦄, Value used tree → Low limit tree) (room : 2 ≤ limit)
    (items : Grammar.Items Value used trees) : LowAll limit trees := by
  induction items with
  | last item => exact .cons (low item) (lowAll_newLines _ room)
  | comma item =>
      exact .cons (low item) ((lowAll_newLines _ room).append (lowAll_newLines _ room))
  | more item _ _ _ _ ih =>
      exact .cons (low item)
        ((lowAll_newLines _ room).append ((lowAll_newLines _ room).append ih))

theorem key_low {token : Token} (key : Grammar.Key token tree) : Low 2 tree := by
  cases key with
  | name => exact low_production .identifier token nofun
  | string => exact low_production .string token nofun

theorem element_low (low : ∀ ⦃used tree⦄, Value used tree → Low limit tree)
    (room : 2 ≤ limit) (element : Grammar.Element Value used tree) : Low (limit + 1) tree := by
  obtain ⟨key, _, item⟩ := element
  have children := LowAll.cons ((key_low key).mono room) (.cons (low item) .nil)
  exact children.production .objectElement _ nofun

theorem elements_low (low : ∀ ⦃used tree⦄, Value used tree → Low limit tree)
    (room : 2 ≤ limit) (elements : Grammar.Elements Value used trees) :
    LowAll (limit + 1) trees := by
  have wide : 2 ≤ limit + 1 := by omega
  induction elements with
  | none => exact .nil
  | last item => exact .cons (element_low low room item) .nil
  | @more _ _ _ _ lines _ item separates _ ih =>
      have between : LowAll (limit + 1) lines := by
        cases separates with
        | comma | lines => exact lowAll_newLines _ wide
      exact .cons (element_low low room item) (between.append ih)

theorem optional_low (low : ∀ ⦃used tree⦄, Value used tree → Low limit tree)
    (room : 2 ≤ limit) (items : Grammar.Optional (Grammar.Items Value) used trees) :
    LowAll limit trees := by
  cases items with
  | none => exact .nil
  | some items => exact items_low low room items

theorem arguments_low (low : ∀ ⦃used tree⦄, Value used tree → Low limit tree)
    (room : 2 ≤ limit) (arguments : Grammar.Arguments Value used trees) :
    LowAll (limit + 1) trees := by
  cases arguments with
  | none => exact .nil
  | some items => exact .cons ((items_low low room items).production .arguments _ nofun) .nil

theorem primary_low (low : ∀ ⦃used tree⦄, Value used tree → Low limit tree)
    (room : 2 ≤ limit) (primary : Grammar.Primary Value used trees) :
    LowAll (limit + 2) trees := by
  have wide : 2 ≤ limit + 2 := by omega
  have single : ∀ {rule : Rule} {token : Token}, rule ≠ .term →
      LowAll (limit + 2) [Grammar.leaf rule token] :=
    fun other => .cons ((low_production _ _ other).mono wide) .nil
  cases primary with
  | int | float | string | name => exact single nofun
  | group opens leading item =>
      have value := (low item).mono (Nat.le_add_right limit 2)
      exact (lowAll_newLines _ wide).append (.cons value (lowAll_newLines _ wide))
  | @call function _ _ _ lead _ _ _ _ _ inner =>
      have name := (low_production .identifier function nofun).mono (Nat.le_succ_of_le room)
      have inside := (lowAll_newLines lead (Nat.le_succ_of_le room)).append
        (arguments_low low room inner)
      exact .cons ((LowAll.cons name inside).production .call _ nofun) .nil
  | @tuple _ _ lead _ _ _ _ inner =>
      have inside := (lowAll_newLines lead room).append (optional_low low room inner)
      exact .cons ((inside.production .tuple _ nofun).mono (Nat.le_succ _)) .nil
  | @object _ _ lead _ _ _ _ inner =>
      have inside := (lowAll_newLines lead (Nat.le_succ_of_le room)).append
        (elements_low low room inner)
      exact .cons (inside.production .object _ nofun) .nil

/-- A term without steps did not come about by a step. -/
theorem primary_not_projected {line : Nat} (whole : ∀ ⦃used tree⦄, Value used tree → Whole tree)
    (primary : Grammar.Primary Value used trees) :
    (node .term line trees).isProjected = false := by
  cases primary with
  | int | float | string | name | call | tuple | object => rfl
  | @group _ _ lead _ trail _ _ _ item =>
      cases lead with
      | nil =>
          cases trail with
          | nil => exact (whole item).stepless
          | cons => rfl
      | cons => cases trail with
        | nil | cons => rfl

theorem primary_tall (primary : Grammar.Primary Value used trees) : 1 ≤ highest trees := by
  have taller : ∀ (before behind : List Tree) (tree : Tree),
      1 ≤ highest (before ++ tree :: behind) := by
    intro before behind tree
    have some := one_le_height tree
    rw [highest_append, highest_cons]
    omega
  cases primary with
  | int | float | string | name | call | tuple | object => exact taller [] [] _
  | group => exact taller _ _ _

/-- A term without steps has at least three levels, unless it is empty brackets. -/
theorem primary_hollow {line : Nat} (whole : ∀ ⦃used tree⦄, Value used tree → Whole tree)
    (primary : Grammar.Primary Value used trees) (short : (node .term line trees).height ≤ 2) :
    Hollow (node .term line trees) := by
  rw [height_node] at short
  have childless : ∀ {rule : Rule} {inner : Nat} {children : List Tree},
      1 + highest [node rule inner children] ≤ 2 → children = [] := by
    intro rule inner children short
    rw [highest_cons, height_node, highest_nil] at short
    cases children with
    | nil => rfl
    | cons child =>
        have some := one_le_height child
        rw [highest_cons] at short
        omega
  cases primary with
  | int | float | string | name => exact absurd (childless short) (List.cons_ne_nil _ _)
  | call => exact absurd (childless short) (List.cons_ne_nil _ _)
  | group _ _ item =>
      have tall := (whole item).tall
      rw [highest_append, highest_cons] at short
      omega
  | tuple =>
      rw [childless short]
      exact .mk (.inl rfl)
  | object =>
      rw [childless short]
      exact .mk (.inr rfl)

end Phrases

/-! ### Steps -/

theorem steps_whole {line : Nat} {used : List Token} {term last : Tree}
    (steps : Grammar.Steps line used term last) (whole : Whole term) : Whole last := by
  induction steps with
  | none => exact whole
  | @more _ _ step term _ _ _ ih =>
      have above := height_project line term step
      exact ih ⟨by omega, rfl⟩

theorem operation_whole {Value : Grammar.Phrase} {used : List Token} {tree : Tree}
    (operation : Grammar.Operation Value used tree) : Whole tree := by
  have term : ∀ {used tree}, Grammar.Term Value used tree → Whole tree := by
    intro used tree term
    obtain ⟨first, steps⟩ := term
    have tall := primary_tall first
    exact steps_whole steps ⟨by rw [height_node]; omega, rfl⟩
  have parent : ∀ {rule line child trees}, rule.takesStep = false →
      Whole (node rule line (child :: trees)) := by
    intro rule line child trees stepless
    have some := one_le_height child
    exact ⟨by rw [height_node, highest_cons]; omega, stepless⟩
  cases operation with
  | single operand =>
      cases operand with
      | plain inner => exact term inner
      | signed => exact parent rfl
  | binary => exact parent rfl

theorem expr_whole (depth : Nat) {used : List Token} {tree : Tree}
    (expr : Grammar.Expr depth used tree) : Whole tree := by
  cases depth with
  | zero => exact expr.elim
  | succ depth => exact operation_whole expr

/-- The height that the loop counts for a term, next to the height that it has. Before the first
step both are the same. -/
def Counted (height : Nat) (term : Tree) : Prop :=
  term.height = height ∧ ¬Overlooked term ∧ (height ≤ 2 → Hollow term) ∨
    term.height = height + 1 ∧ Overlooked term

theorem overlooked_project_iff {line : Nat} {term : Tree} {step : Projection} :
    Overlooked (project line term step) ↔
      Hollow term ∧ (step.term = .getAttrTerm ∨ step.term = .indexTerm) ∨
        Overlooked term ∧ step.term.takesStep = true := by
  constructor
  · intro overlooked
    generalize whole : project line term step = tree at overlooked
    cases overlooked with
    | first hollow indexes | more overlooked takes =>
        simp only [project, node.injEq, List.cons.injEq, and_true, true_and] at whole
        obtain ⟨_, rule, _, rfl, _⟩ := whole
        rw [rule]
        simp_all
  · rintro (⟨hollow, indexes⟩ | ⟨overlooked, takes⟩)
    · exact .first hollow indexes
    · exact .more overlooked takes

theorem Overlooked.isProjected {term : Tree} (overlooked : Overlooked term) :
    term.isProjected = true := by
  cases overlooked with
  | first _ indexes =>
      rcases indexes with is | is
      · simp [Tree.isProjected, project, takesStep, is, Rule.takesStep]
      · simp [Tree.isProjected, project, takesStep, is, Rule.takesStep]
  | more _ takes => simp [Tree.isProjected, project, takesStep, takes]

/-- Before the first step the height that is counted is the height of the term. -/
theorem primary_counted {Value : Grammar.Phrase} {used : List Token} {trees : List Tree}
    (line : Nat) (whole : ∀ ⦃used tree⦄, Value used tree → Whole tree)
    (primary : Grammar.Primary Value used trees) :
    Counted (node .term line trees).height (node .term line trees) := by
  refine .inl ⟨rfl, fun overlooked => ?_, primary_hollow whole primary⟩
  have projected := overlooked.isProjected
  rw [primary_not_projected whole primary] at projected
  cases projected

theorem Overlooked.three_le_height {term : Tree} (overlooked : Overlooked term) :
    3 ≤ term.height := by
  cases overlooked with
  | @first _ term | @more _ term =>
      have below := one_le_height term
      have above := height_project ‹Nat› term ‹Projection›
      omega

theorem Hollow.height_eq {term : Tree} (hollow : Hollow term) : term.height = 2 := by
  cases hollow
  simp

theorem step_takes {used : List Token} {step : Projection} (taken : Grammar.Step used step) :
    step.term.takesStep = true := by
  cases taken with
  | _ => rfl

/-- A splat is lower than every term. A name or an index has three levels. -/
theorem step_height {used : List Token} {step : Projection} (taken : Grammar.Step used step) :
    step.step.height = 1 ∧ ¬(step.term = .getAttrTerm ∨ step.term = .indexTerm) ∨
      step.step.height = 3 ∧ (step.term = .getAttrTerm ∨ step.term = .indexTerm) := by
  cases taken with
  | attr => exact .inr ⟨by simp [height_production], .inl rfl⟩
  | number | int | string => exact .inr ⟨by simp [height_production], .inr rfl⟩
  | attrSplat | fullSplat => exact .inl ⟨by simp, by simp⟩

theorem height_project_eq (line : Nat) (term : Tree) (step : Projection) :
    (project line term step).height = 2 + max term.height step.step.height := by
  simp only [project, height_node, highest_cons, highest_nil, Nat.max_zero]
  omega

/-- Two levels are counted for a step, and only from empty brackets it may add three. -/
theorem Counted.step {height line : Nat} {term : Tree} {used : List Token} {step : Projection}
    (counted : Counted height term) (taken : Grammar.Step used step) :
    Counted (height + 2) (project line term step) := by
  have whole := height_project_eq line term step
  have atMost : step.step.height ≤ 3 := by
    rcases step_height taken with ⟨low, _⟩ | ⟨high, _⟩
    · omega
    · omega
  rcases counted with ⟨same, exact_, hollow⟩ | ⟨same, overlooked⟩
  · have next : Overlooked (project line term step) → Hollow term ∧
        (step.term = .getAttrTerm ∨ step.term = .indexTerm) :=
      fun overlooked => (overlooked_project_iff.mp overlooked).resolve_right fun more =>
        exact_ more.1
    by_cases short : height ≤ 2
    · have two := (hollow short).height_eq
      rcases step_height taken with ⟨low, other⟩ | ⟨high, indexes⟩
      · exact .inl ⟨by omega, fun overlooked => other (next overlooked).2, by omega⟩
      · exact .inr ⟨by omega, .first (hollow short) indexes⟩
    · have tall : ¬Hollow term := by
        intro hollow
        have two := hollow.height_eq
        omega
      exact .inl ⟨by omega, fun overlooked => tall (next overlooked).1, by omega⟩
  · have three := overlooked.three_le_height
    exact .inr ⟨by omega, .more overlooked (step_takes taken)⟩

/-- A term fits if and only if the height that is counted for it is within the limit. -/
theorem Counted.fits_iff {height : Nat} {term : Tree} (counted : Counted height term) :
    Fits term ↔ height ≤ maxTermHeight := by
  rcases counted with ⟨same, exact_, _⟩ | ⟨same, overlooked⟩
  · constructor
    · rintro (low | ⟨_, overlooked⟩)
      · omega
      · exact absurd overlooked exact_
    · exact fun within => .inl (by omega)
  · constructor
    · rintro (low | ⟨high, _⟩)
      · omega
      · omega
    · intro within
      by_cases last : height = maxTermHeight
      · exact .inr ⟨by rw [same, last], overlooked⟩
      · exact .inl (by omega)

theorem Fits.height_le {term : Tree} (fits : Fits term) : term.height ≤ maxTermHeight + 1 := by
  rcases fits with low | ⟨same, _⟩
  · exact Nat.le_succ_of_le low
  · exact Nat.le_of_eq same

section Readers

variable {limit line height : Nat} {Value Nested : Grammar.Phrase} {expression block : Reader Tree}
  {stop : Position} {tokens rest : List Token} {term tree : Tree}

theorem step_fitting {used : List Token} {step : Projection} (taken : Grammar.Step used step) :
    Fitting step.step ∧ step.term ≠ .term := by
  have index : ∀ {rule part line token}, rule ≠ .term → part ≠ .term →
      Fitting (node rule line [Grammar.leaf part token]) :=
    fun other inner => ((LowAll.cons (low_production _ _ inner) .nil).production _ _ other).fits
  have splat : ∀ {rule line}, rule ≠ .term → Fitting (node rule line []) :=
    fun other => (fitting_of_not_projected (isProjected_of_ne other)).mpr fittingAll_nil
  cases taken with
  | attr | number | int | string => exact ⟨index nofun nofun, nofun⟩
  | attrSplat | fullSplat => exact ⟨splat nofun, nofun⟩

theorem fitting_project_iff {used : List Token} {step : Projection}
    (taken : Grammar.Step used step) :
    Fitting (project line term step) ↔ Fits (project line term step) ∧ Fitting term := by
  obtain ⟨inner, other⟩ := step_fitting taken
  have projected : (project line term step).isProjected = true := by
    simp [isProjected, project, takesStep, step_takes taken]
  have single : Fitting (node step.term line [term, step.step]) ↔ Fitting term := by
    rw [fitting_of_not_projected (isProjected_of_ne other), fittingAll_cons, fittingAll_cons]
    exact and_iff_left ⟨inner, fittingAll_nil⟩
  rw [project, fitting_node_iff, fittingAll_cons, single, and_iff_left fittingAll_nil]
  exact and_congr_left' ⟨fun fits => fits projected, fun fits _ => fits⟩

/-- A step is read only where the height counted for the term behind it is within the limit. -/
theorem projections_low (room : maxTermHeight + 1 ≤ limit) (bound : List Token)
    (counted : Counted height term) (low : Low limit term)
    (read : projections line bound height term stop tokens = .done tree rest) :
    Low limit tree := by
  induction bound generalizing height term tokens with
  | nil =>
      cases read
      exact low
  | cons _ bound ih =>
      rw [projections, peek_bind] at read
      split at read
      next steps =>
        split at read
        next => cases read
        next within =>
          obtain ⟨step, left, first, more⟩ := (bind_eq_done_iff ..).mp read
          obtain ⟨used, _, taken⟩ := projection_reads steps first
          have counted : Counted (height + 2) (project line term step) := counted.step taken
          have fits := counted.fits_iff.mpr (Nat.le_of_not_lt within)
          have projected := (fitting_project_iff taken).mpr ⟨fits, low.fits⟩
          exact ih counted ⟨Nat.le_trans fits.height_le room, projected⟩ more
      next =>
        cases read
        exact low

theorem term_low (sound : Reads expression Value) (opens : Grammar.Opens Value)
    (whole : ∀ ⦃used tree⦄, Value used tree → Whole tree)
    (low : ∀ ⦃used tree⦄, Value used tree → Low limit tree)
    (room : maxTermHeight ≤ limit + 2)
    (read : Tree.term expression stop tokens = .done tree rest) : Low (limit + 3) tree := by
  simp only [Tree.term, bind_eq_done_iff, peek_done_iff] at read
  obtain ⟨_, _, ⟨rfl, rfl⟩, _, _, first, more⟩ := read
  obtain ⟨used, rfl, children, rfl, primary⟩ := primary_reads sound opens first
  have two : 2 ≤ limit := by
    rw [maxTermHeight] at room
    omega
  have start : Low (limit + 3) (node .term (Grammar.line used) children) := by
    refine (primary_low low two primary).node fun projected => ?_
    rw [primary_not_projected whole primary] at projected
    cases projected
  exact projections_low (by omega) _ (primary_counted _ whole primary) start more

theorem operand_low (sound : Reads expression Value) (opens : Grammar.Opens Value)
    (whole : ∀ ⦃used tree⦄, Value used tree → Whole tree)
    (low : ∀ ⦃used tree⦄, Value used tree → Low limit tree)
    (room : maxTermHeight ≤ limit + 2)
    (read : operand expression stop tokens = .done tree rest) : Low (limit + 4) tree := by
  simp only [operand, bind_eq_done_iff, peek_done_iff] at read
  obtain ⟨_, _, ⟨rfl, rfl⟩, read⟩ := read
  split at read
  next =>
    simp only [bind_eq_done_iff, advance_done_iff, pure_done_iff] at read
    obtain ⟨sign, _, _, value, _, inner, rfl, rfl⟩ := read
    have term := term_low sound opens whole low room inner
    have children := LowAll.cons ((low_leaf sign).mono (Nat.le_add_left 1 (limit + 2)))
      (.cons term .nil)
    exact children.production .unary _ (by decide)
  next => exact (term_low sound opens whole low room read).mono (Nat.le_succ _)

theorem operation_low (sound : Reads expression Value) (opens : Grammar.Opens Value)
    (whole : ∀ ⦃used tree⦄, Value used tree → Whole tree)
    (low : ∀ ⦃used tree⦄, Value used tree → Low limit tree)
    (room : maxTermHeight ≤ limit + 2)
    (read : operation expression stop tokens = .done tree rest) : Low (limit + 5) tree := by
  simp only [operation, bind_eq_done_iff, peek_done_iff] at read
  obtain ⟨_, _, ⟨rfl, rfl⟩, left, tokens, first, _, _, ⟨rfl, rfl⟩, read⟩ := read
  have operand := operand_low sound opens whole low room first
  split at read
  next =>
    simp only [bind_eq_done_iff, advance_done_iff, pure_done_iff] at read
    obtain ⟨_, _, ⟨rfl, rfl⟩, _, _, between, right, _, second, rfl, rfl⟩ := read
    obtain ⟨newlines, _, _, rfl, _⟩ := newLines_done between
    obtain ⟨_, _, value⟩ := sound second
    have two : 2 ≤ limit := by
      rw [maxTermHeight] at room
      omega
    have symbol := (low_production .binaryOperator (ahead stop tokens) (by decide)).mono two
    have inside := LowAll.cons symbol
      ((lowAll_newLines newlines two).append (.cons (low value) .nil))
    have behind := (inside.production .binaryTerm (ahead stop tokens).place.line (by decide)).mono
      (Nat.add_le_add_left (by decide : 1 ≤ 4) limit)
    have children := LowAll.cons operand (.cons behind .nil)
    exact children.production .binary _ (by decide)
  next =>
    obtain ⟨rfl, rfl⟩ := pure_done_iff.mp read
    exact operand.mono (Nat.le_succ _)

end Readers

/-! ### Expressions and statements -/

/-- The greatest height of an expression in which at most so many levels are nested. -/
def expressionHeight (depth : Nat) : Nat :=
  maxTermHeight - 2 + 5 * depth

theorem expressionHeight_succ (depth : Nat) :
    expressionHeight (depth + 1) = expressionHeight depth + 5 := rfl

theorem expressionHeight_room (depth : Nat) : maxTermHeight ≤ expressionHeight depth + 2 := by
  rw [expressionHeight, maxTermHeight]
  omega

/-- The expressions of the grammar with trees as low as they should be. -/
def LowExpr (depth : Nat) : Grammar.Phrase := fun used tree =>
  Grammar.Expr depth used tree ∧ Low (expressionHeight depth) tree

theorem expression_low (depth : Nat) : Reads (Tree.expression depth) (LowExpr depth) := by
  induction depth with
  | zero =>
      intro stop tokens tree rest read
      cases read
  | succ depth ih =>
      intro stop tokens tree rest read
      obtain ⟨used, whole, expr⟩ := expression_reads (depth + 1) read
      have opens : Grammar.Opens (LowExpr depth) :=
        fun used tree value => Grammar.Expr.opens depth value.1
      have low := operation_low ih opens (fun used tree value => expr_whole depth value.1)
        (fun used tree value => value.2) (expressionHeight_room depth) read
      exact ⟨used, whole, expr, low⟩

section Statements

variable {limit : Nat} {Value Nested Item : Grammar.Phrase} {used : List Token} {tree : Tree}
  {trees : List Tree}

theorem stmt_low (low : ∀ ⦃used tree⦄, Value used tree → Low limit tree)
    (nested : ∀ ⦃used tree⦄, Nested used tree → Low limit tree) (room : 2 ≤ limit)
    (stmt : Grammar.Stmt Value Nested used tree) : Low (limit + 1) tree := by
  cases stmt with
  | @attr key _ _ _ _ _ _ item =>
      have name := (low_production .identifier key nofun).mono room
      exact (LowAll.cons name (.cons (low item) .nil)).production .attr _ nofun
  | block inner => exact (nested inner).mono (Nat.le_succ limit)

theorem follow_low (low : ∀ ⦃used tree⦄, Item used tree → Low limit tree) (room : 2 ≤ limit)
    (follow : Grammar.Follow Item used trees) : LowAll limit trees := by
  induction follow with
  | none => exact lowAll_newLines _ room
  | more _ _ item _ ih => exact (lowAll_newLines _ room).append (.cons (low item) ih)

theorem body_low (low : ∀ ⦃used tree⦄, Item used tree → Low limit tree) (room : 2 ≤ limit)
    (body : Grammar.Body Item used trees) : LowAll limit trees := by
  cases body with
  | blank => exact lowAll_newLines _ room
  | items _ item follow =>
      exact (lowAll_newLines _ room).append (.cons (low item) (follow_low low room follow))

theorem labels_low (labels : Grammar.Labels used trees) : LowAll 2 trees := by
  induction labels with
  | none => exact .nil
  | more key _ ih => exact .cons (key_low key) ih

theorem labelled_low (low : ∀ ⦃used tree⦄, Item used tree → Low limit tree) (room : 2 ≤ limit)
    (labelled : Grammar.Labelled Item used tree) : Low (limit + 2) tree := by
  have wide : 2 ≤ limit + 1 := Nat.le_succ_of_le room
  obtain @⟨title, _, _, _, _, inner, _, trees, _, labels, _, body, _⟩ := labelled
  have items := body_low low room body
  have inside : LowAll (limit + 1) (Tree.body (Grammar.line inner) trees) := by
    unfold Tree.body
    split
    · exact .cons (items.production .body _ nofun) .nil
    · exact items.mono (Nat.le_succ limit)
  have name := (low_production .identifier title nofun).mono wide
  have children := LowAll.cons name (((labels_low labels).mono wide).append inside)
  exact children.production .block _ nofun

end Statements

/-- The blocks of the grammar with trees as low as they should be. -/
def LowBlock (depth : Nat) : Grammar.Phrase := fun used tree =>
  Grammar.Block depth used tree ∧ Low (expressionHeight depth) tree

theorem LowBlock.named (depth : Nat) : Grammar.Named (LowBlock depth) :=
  fun _ _ block => Grammar.Block.named depth block.1

theorem two_le_expressionHeight (depth : Nat) : 2 ≤ expressionHeight depth := by
  rw [expressionHeight, maxTermHeight]
  omega

theorem lowStmt (depth : Nat) {used : List Token} {tree : Tree}
    (stmt : Grammar.Stmt (LowExpr depth) (LowBlock depth) used tree) :
    Low (expressionHeight depth + 1) tree :=
  stmt_low (fun _ _ value => value.2) (fun _ _ block => block.2) (two_le_expressionHeight depth)
    stmt

theorem block_low (depth : Nat) : Reads (Tree.block depth) (LowBlock depth) := by
  induction depth with
  | zero =>
      intro stop tokens tree rest read
      cases read
  | succ depth ih =>
      intro stop tokens tree rest read
      obtain ⟨used, whole, block⟩ := block_reads (depth + 1) read
      obtain ⟨_, _, labelled⟩ :=
        labelledBlock_reads (expression_low depth) ih (LowBlock.named depth) read
      have low := labelled_low (fun _ _ => lowStmt depth)
        (Nat.le_succ_of_le (two_le_expressionHeight depth)) labelled
      refine ⟨used, whole, block, low.mono ?_⟩
      rw [expressionHeight_succ]
      omega

/-! ### Documents -/

theorem ofTokens_low {tokens : List Token} {tree : Tree} (read : ofTokens tokens = .ok tree) :
    Low (expressionHeight maxNesting + 3) tree := by
  obtain ⟨used, _, line, trees, _, _, body, rfl⟩ :=
    ofTokens_reads_body (expression_low maxNesting) (block_low maxNesting)
      (LowBlock.named maxNesting) read
  have items := body_low (fun _ _ => lowStmt maxNesting)
    (Nat.le_succ_of_le (two_le_expressionHeight maxNesting)) body
  have children : LowAll (expressionHeight maxNesting + 2)
      (if trees.any isStatement then [node .body line trees] else []) := by
    split
    · exact .cons (items.production .body line nofun) .nil
    · exact .nil
  exact children.production .start line nofun

/-- In every tree that is read, the terms that came about by steps have no more levels than the
limit allows, but for one level where the steps lead from empty brackets to a name or an index. -/
theorem ofTokens_projected {tokens : List Token} {tree : Tree} (read : ofTokens tokens = .ok tree) :
    ∀ term ∈ tree.subtrees, term.isProjected = true →
      term.height ≤ maxTermHeight ∨ term.height = maxTermHeight + 1 ∧ Overlooked term :=
  (ofTokens_low read).fits

/-- The tokens of `v = []` with so many steps `.b` behind the brackets. -/
def stepsFromNothing (steps : Nat) : List Token :=
  [⟨.ident "v", ⟨1, 1⟩⟩, ⟨.assign, ⟨1, 3⟩⟩, ⟨.leftBracket, ⟨1, 5⟩⟩, ⟨.rightBracket, ⟨1, 6⟩⟩] ++
    (List.range steps).flatMap fun step =>
      [⟨.dot, ⟨1, 7 + 2 * step⟩⟩, ⟨.ident "b", ⟨1, 8 + 2 * step⟩⟩]

/-- A single step, from empty brackets to a name. -/
theorem ofTokens_projected_single :
    ∃ tree, ofTokens (stepsFromNothing 1) = .ok tree ∧
      (∃ term ∈ tree.subtrees, term.isProjected = true) ∧
      ∀ term ∈ tree.subtrees, term.isProjected = true →
        term.height ≤ maxTermHeight ∨ term.height = maxTermHeight + 1 ∧ Overlooked term := by
  have found : (ofTokens (stepsFromNothing 1)).toOption.any
      (fun tree => tree.subtrees.any isProjected) = true := by
    decide +kernel
  obtain ⟨tree, read, some⟩ := exists_of_any found
  exact ⟨tree, read, List.any_eq_true.mp some, ofTokens_projected read⟩

/-- As many steps as are counted within the limit reach a level above it. -/
theorem ofTokens_projected_above :
    ∃ tree, ofTokens (stepsFromNothing 255) = .ok tree ∧
      ∃ term ∈ tree.subtrees, term.isProjected = true ∧ maxTermHeight < term.height := by
  have found : (ofTokens (stepsFromNothing 255)).toOption.any (fun tree =>
      tree.subtrees.any fun term => term.isProjected && decide (maxTermHeight < term.levels)) =
        true := by
    decide +kernel
  obtain ⟨tree, read, some⟩ := exists_of_any found
  obtain ⟨term, member, both⟩ := List.any_eq_true.mp some
  rw [Bool.and_eq_true, decide_eq_true_iff, ← height_eq] at both
  exact ⟨tree, read, term, member, both⟩

end Tree

end ConfigLang
