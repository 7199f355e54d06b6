import ConfigLang.Proofs.Image
import ConfigLang.Proofs.Limits
/-!
How deep documents are nested. What a tree stands for is no deeper than the tree is high, so that
whatever goes down a document or its tree needs no more levels than the limits allow, however long
the text is.
-/

set_option autoImplicit false

namespace ConfigLang

namespace Expression

mutual

/-- The levels of an expression. -/
def depth : Expression → Nat
  | literal _ | identifier _ => 1
  | array items => 1 + depthAll items
  | object fields => 1 + depthFields fields
  | call _ arguments => 1 + depthAll arguments
  | getAttr on _ | getIndex on _ | attrSplat on | indexSplat on => 1 + depth on
  | unary _ operand => 1 + depth operand
  | binary _ left right => 1 + max (depth left) (depth right)

def depthAll : List Expression → Nat
  | [] => 0
  | item :: rest => max (depth item) (depthAll rest)

def depthFields : List (String × Expression) → Nat
  | [] => 0
  | (_, value) :: rest => max (depth value) (depthFields rest)

end

theorem depthAll_le {limit : Nat} {items : List Expression}
    (shallow : ∀ item ∈ items, item.depth ≤ limit) : depthAll items ≤ limit := by
  induction items with
  | nil => exact Nat.zero_le limit
  | cons item items ih =>
      obtain ⟨first, others⟩ := List.forall_mem_cons.mp shallow
      exact Nat.max_le.mpr ⟨first, ih others⟩

theorem depthFields_le {limit : Nat} {fields : List (String × Expression)}
    (shallow : ∀ field ∈ fields, field.2.depth ≤ limit) : depthFields fields ≤ limit := by
  induction fields with
  | nil => exact Nat.zero_le limit
  | cons field fields ih =>
      obtain ⟨first, others⟩ := List.forall_mem_cons.mp shallow
      exact Nat.max_le.mpr ⟨first, ih others⟩

end Expression

namespace Statement

mutual

/-- The levels of a statement. -/
def depth : Statement → Nat
  | assign _ value => 1 + value.depth
  | block _ labels body => 1 + max (Expression.depthAll labels) (depthAll body)

def depthAll : List Statement → Nat
  | [] => 0
  | statement :: rest => max (depth statement) (depthAll rest)

end

theorem depthAll_le {limit : Nat} {statements : List Statement}
    (shallow : ∀ statement ∈ statements, statement.depth ≤ limit) :
    depthAll statements ≤ limit := by
  induction statements with
  | nil => exact Nat.zero_le limit
  | cons statement statements ih =>
      obtain ⟨first, others⟩ := List.forall_mem_cons.mp shallow
      exact Nat.max_le.mpr ⟨first, ih others⟩

end Statement

/-- The levels of a document. -/
def Document.depth (document : Document) : Nat :=
  1 + Statement.depthAll document.body

namespace Part

/-- The levels of a part. A name or a primitive is a level where it comes to stand for an
expression. -/
def depth : Part → Nat
  | token _ | newline | access _ | operator _ => 0
  | name _ | primitive _ => 1
  | expression value => value.depth
  | statement value => value.depth
  | body statements => Statement.depthAll statements
  | arguments values => Expression.depthAll values
  | element _ value => value.depth
  | operation _ right => right.depth
  | document value => value.depth

section Productions

variable {parts : List Part} {part : Part} {limit : Nat}

theorem toExpression_depth {value : Expression} (taken : part.toExpression = .ok value) :
    value.depth ≤ part.depth := by
  cases part with
  | expression | primitive =>
      cases taken
      exact Nat.le_refl _
  | _ => cases taken

theorem toLabel_depth {label : Expression} (taken : part.toLabel = .ok label) :
    label.depth ≤ part.depth := by
  unfold toLabel at taken
  split at taken
  · cases taken
    exact Nat.le_refl _
  · cases taken
    exact Nat.le_refl _
  · cases taken

theorem toStatement_depth {value : Statement} (taken : part.toStatement = .ok value) :
    value.depth ≤ part.depth := by
  cases part with
  | statement =>
      cases taken
      exact Nat.le_refl _
  | _ => cases taken

theorem toElement_depth {entry : String × Expression} (taken : part.toElement = .ok entry) :
    entry.2.depth ≤ part.depth := by
  cases part with
  | element =>
      cases taken
      exact Nat.le_refl _
  | _ => cases taken

/-- What is taken from shallow parts, one by one, is shallow. -/
theorem mapM_depth {α : Type} {take : Part → Reading α} {measure : α → Nat} {values : List α}
    (each : ∀ {part value}, take part = .ok value → measure value ≤ part.depth)
    (taken : parts.mapM take = .ok values) (shallow : ∀ part ∈ parts, part.depth ≤ limit) :
    ∀ value ∈ values, measure value ≤ limit := by
  induction parts generalizing values with
  | nil =>
      cases taken
      exact nofun
  | cons part parts ih =>
      rw [List.mapM_cons] at taken
      obtain ⟨value, first, taken⟩ := bind_eq_ok_iff.mp taken
      obtain ⟨others, rest, same⟩ := bind_eq_ok_iff.mp taken
      cases same
      obtain ⟨low, lower⟩ := List.forall_mem_cons.mp shallow
      exact List.forall_mem_cons.mpr ⟨Nat.le_trans (each first) low, ih rest lower⟩

theorem ofName_depth (word : String) : (ofName word).depth = 1 := by
  unfold ofName
  split
  · rfl
  · split
    · rfl
    · split
      · rfl
      · rfl

theorem ofStart_depth (shallow : ∀ part ∈ strip parts, part.depth ≤ limit)
    (made : ofStart parts = .ok part) : part.depth ≤ limit + 1 := by
  unfold ofStart at made
  split at made
  next =>
    cases made
    exact Nat.le_add_left 1 limit
  next last found =>
    split at made
    next statements alone =>
      cases made
      have low := shallow _ (List.mem_of_getLast? found)
      change Statement.depthAll statements ≤ limit at low
      change 1 + Statement.depthAll statements ≤ limit + 1
      omega
    next => cases made

theorem ofBlock_depth (shallow : ∀ part ∈ strip parts, part.depth ≤ limit)
    (made : ofBlock parts = .ok part) : part.depth ≤ limit + 1 := by
  have low : ∀ part ∈ withBody (strip parts), part.depth ≤ limit := by
    have added : ∀ part ∈ strip parts ++ [body []], part.depth ≤ limit :=
      List.forall_mem_append.mpr ⟨shallow, List.forall_mem_singleton.mpr (Nat.zero_le limit)⟩
    unfold withBody
    split
    · exact added
    · exact added
    · exact shallow
  unfold ofBlock at made
  split at made
  next first second rest whole =>
    rw [whole] at low
    split at made
    next statements title last =>
      obtain ⟨labels, labelled, made⟩ := bind_eq_ok_iff.mp made
      cases made
      obtain ⟨_, inner⟩ := List.forall_mem_cons.mp low
      have inside := inner _ (List.mem_of_getLast? last)
      have heads := mapM_depth toLabel_depth labelled
        fun part member => inner part (List.mem_of_mem_dropLast member)
      have labels := Expression.depthAll_le heads
      rw [depth] at inside
      rw [depth, Statement.depth]
      omega
    all_goals cases made
  next => cases made

theorem ofAccess_depth {wanted : Expression → Access → Option Expression}
    (adds : ∀ {on taken value}, wanted on taken = some value → value.depth = 1 + on.depth)
    (shallow : ∀ part ∈ strip parts, part.depth ≤ limit)
    (made : ofAccess wanted parts = .ok part) : part.depth ≤ limit + 1 := by
  obtain ⟨⟨term, step⟩, pair, made⟩ := bind_eq_ok_iff.mp made
  obtain ⟨on, expression, made⟩ := bind_eq_ok_iff.mp made
  rw [two_eq_ok pair] at shallow
  have low := shallow term List.mem_cons_self
  have inner := toExpression_depth expression
  cases step with
  | access taken =>
      cases result : wanted on taken with
      | none =>
          simp only [result] at made
          cases made
      | some value =>
          simp only [result] at made
          cases made
          rw [depth, adds result]
          omega
  | _ => cases made

theorem ofCall_depth (shallow : ∀ part ∈ strip parts, part.depth ≤ limit)
    (made : ofCall parts = .ok part) : part.depth ≤ limit + 1 := by
  unfold ofCall at made
  generalize strip parts = kept at made shallow
  split at made
  case h_2 =>
    cases made
    exact Nat.le_add_left 1 limit
  case h_3 function values =>
    cases made
    have low := shallow (arguments values) (List.mem_cons_of_mem _ List.mem_cons_self)
    rw [depth] at low
    rw [depth, Expression.depth]
    omega
  all_goals cases made

theorem one_depth (shallow : ∀ part ∈ strip parts, part.depth ≤ limit)
    (read : one parts = .ok part) : part.depth ≤ limit := by
  rw [one_eq_ok read] at shallow
  exact shallow part List.mem_cons_self

theorem two_depth {first second : Part} (shallow : ∀ part ∈ strip parts, part.depth ≤ limit)
    (read : two parts = .ok (first, second)) : first.depth ≤ limit ∧ second.depth ≤ limit := by
  rw [two_eq_ok read] at shallow
  exact ⟨shallow first List.mem_cons_self,
    shallow second (List.mem_cons_of_mem _ List.mem_cons_self)⟩

/-- A production made from the kind of its only token is no deeper than one level. -/
theorem ofToken_depth {make : Kind → Reading Part}
    (flat : ∀ kind part, make kind = .ok part → part.depth ≤ 1)
    (made : (onlyToken parts >>= make) = .ok part) : part.depth ≤ limit + 1 := by
  obtain ⟨kind, _, made⟩ := bind_eq_ok_iff.mp made
  exact Nat.le_trans (flat kind part made) (Nat.le_add_left 1 limit)

theorem ofTerm_depth (shallow : ∀ part ∈ strip parts, part.depth ≤ limit)
    (made : ofTerm parts = .ok part) : part.depth ≤ limit + 1 := by
  obtain ⟨only, read, made⟩ := bind_eq_ok_iff.mp made
  have low := one_depth shallow read
  cases only with
  | name word =>
      cases made
      change (ofName word).depth ≤ limit + 1
      rw [ofName_depth]
      exact Nat.le_add_left 1 limit
  | _ =>
      obtain ⟨value, taken, made⟩ := bind_eq_ok_iff.mp made
      cases made
      exact Nat.le_succ_of_le (Nat.le_trans (toExpression_depth taken) low)

theorem ofAttr_depth (shallow : ∀ part ∈ strip parts, part.depth ≤ limit)
    (made : ofAttr parts = .ok part) : part.depth ≤ limit + 1 := by
  obtain ⟨⟨key, item⟩, pair, made⟩ := bind_eq_ok_iff.mp made
  have low := (two_depth shallow pair).2
  cases key with
  | name key =>
      obtain ⟨value, taken, made⟩ := bind_eq_ok_iff.mp made
      cases made
      have inner := Nat.le_trans (toExpression_depth taken) low
      change 1 + value.depth ≤ limit + 1
      omega
  | _ => cases made

theorem ofObjectElement_depth (shallow : ∀ part ∈ strip parts, part.depth ≤ limit)
    (made : ofObjectElement parts = .ok part) : part.depth ≤ limit + 1 := by
  obtain ⟨⟨key, item⟩, pair, made⟩ := bind_eq_ok_iff.mp made
  obtain ⟨text, _, made⟩ := bind_eq_ok_iff.mp made
  obtain ⟨value, taken, made⟩ := bind_eq_ok_iff.mp made
  cases made
  have low := (two_depth shallow pair).2
  exact Nat.le_succ_of_le (Nat.le_trans (toExpression_depth taken) low)

theorem ofTuple_depth (shallow : ∀ part ∈ strip parts, part.depth ≤ limit)
    (made : ofTuple parts = .ok part) : part.depth ≤ limit + 1 := by
  obtain ⟨values, taken, made⟩ := bind_eq_ok_iff.mp made
  cases made
  have low := Expression.depthAll_le (mapM_depth toExpression_depth taken shallow)
  change 1 + Expression.depthAll values ≤ limit + 1
  omega

/-- The entries that an object keeps are among those given. -/
theorem ofObject_depth (shallow : ∀ part ∈ strip parts, part.depth ≤ limit)
    (made : ofObject parts = .ok part) : part.depth ≤ limit + 1 := by
  obtain ⟨entries, taken, made⟩ := bind_eq_ok_iff.mp made
  cases made
  have inner : ∀ entry ∈ entries, entry.2.depth ≤ limit := mapM_depth toElement_depth taken shallow
  have kept : ∀ field ∈ Fields.ofList entries, field.2.depth ≤ limit :=
    Fields.forall_ofList (P := fun value : Expression => value.depth ≤ limit) inner
  have low := Expression.depthFields_le kept
  change 1 + Expression.depthFields (Fields.ofList entries) ≤ limit + 1
  omega

theorem ofUnary_depth (shallow : ∀ part ∈ strip parts, part.depth ≤ limit)
    (made : ofUnary parts = .ok part) : part.depth ≤ limit + 1 := by
  obtain ⟨⟨sign, operand⟩, pair, made⟩ := bind_eq_ok_iff.mp made
  obtain ⟨op, _, made⟩ := bind_eq_ok_iff.mp made
  obtain ⟨value, taken, made⟩ := bind_eq_ok_iff.mp made
  cases made
  have inner := Nat.le_trans (toExpression_depth taken) (two_depth shallow pair).2
  change 1 + value.depth ≤ limit + 1
  omega

theorem ofBinary_depth (shallow : ∀ part ∈ strip parts, part.depth ≤ limit)
    (made : ofBinary parts = .ok part) : part.depth ≤ limit + 1 := by
  obtain ⟨⟨first, rest⟩, pair, made⟩ := bind_eq_ok_iff.mp made
  obtain ⟨before, behind⟩ := two_depth shallow pair
  cases rest with
  | operation op right =>
      obtain ⟨left, taken, made⟩ := bind_eq_ok_iff.mp made
      cases made
      have inner := Nat.le_trans (toExpression_depth taken) before
      change right.depth ≤ limit at behind
      change 1 + max left.depth right.depth ≤ limit + 1
      omega
  | _ => cases made

theorem ofBinaryTerm_depth (shallow : ∀ part ∈ strip parts, part.depth ≤ limit)
    (made : ofBinaryTerm parts = .ok part) : part.depth ≤ limit + 1 := by
  obtain ⟨⟨sign, operand⟩, pair, made⟩ := bind_eq_ok_iff.mp made
  have low := (two_depth shallow pair).2
  cases sign with
  | operator op =>
      obtain ⟨value, taken, made⟩ := bind_eq_ok_iff.mp made
      cases made
      exact Nat.le_succ_of_le (Nat.le_trans (toExpression_depth taken) low)
  | _ => cases made

/-- What a production stands for is at most a level deeper than the parts of its children. -/
theorem ofRule_depth {rule : Rule} (shallow : ∀ part ∈ strip parts, part.depth ≤ limit)
    (made : ofRule rule parts = .ok part) : part.depth ≤ limit + 1 := by
  cases rule with
  | newLines =>
      cases made
      exact Nat.zero_le _
  | start => exact ofStart_depth shallow made
  | attr => exact ofAttr_depth shallow made
  | block => exact ofBlock_depth shallow made
  | term => exact ofTerm_depth shallow made
  | tuple => exact ofTuple_depth shallow made
  | object => exact ofObject_depth shallow made
  | objectElement => exact ofObjectElement_depth shallow made
  | call => exact ofCall_depth shallow made
  | unary => exact ofUnary_depth shallow made
  | binary => exact ofBinary_depth shallow made
  | binaryTerm => exact ofBinaryTerm_depth shallow made
  | identifier | int | float | string =>
      refine ofToken_depth (fun kind part made => ?_) made
      split at made
      · cases made
        exact Nat.le_refl 1
      · cases made
  | binaryOperator =>
      refine ofToken_depth (fun kind part made => ?_) made
      split at made
      · cases made
        exact Nat.zero_le 1
      · cases made
  | body =>
      obtain ⟨statements, taken, made⟩ := bind_eq_ok_iff.mp made
      cases made
      have low := mapM_depth toStatement_depth taken shallow
      exact Nat.le_succ_of_le (Statement.depthAll_le low)
  | arguments =>
      obtain ⟨values, taken, made⟩ := bind_eq_ok_iff.mp made
      cases made
      have low := mapM_depth toExpression_depth taken shallow
      exact Nat.le_succ_of_le (Expression.depthAll_le low)
  | getAttr | index =>
      obtain ⟨only, read, made⟩ := bind_eq_ok_iff.mp made
      split at made
      all_goals cases made
      all_goals exact Nat.zero_le _
  | attrSplat | fullSplat =>
      obtain ⟨_, rfl⟩ := ofSplat_eq_ok made
      exact Nat.zero_le _
  | getAttrTerm | indexTerm | attrSplatTerm | fullSplatTerm =>
      refine ofAccess_depth (fun {on taken value} found => ?_) shallow made
      cases taken with
      | _ =>
          cases found
          all_goals rfl

end Productions

/-! ### Trees -/

mutual

/-- What a tree stands for has no more levels than the tree. -/
theorem means_depth : ∀ (tree : Tree) (part : Part), Means tree part → part.depth ≤ tree.levels
  | .leaf _, part, means => by
    cases means
    exact Nat.zero_le _
  | .node rule line children, part, means => by
    obtain ⟨_, ⟨parts, read, rfl⟩, made⟩ := means_node_ok means
    have inner := ofTrees_depth children parts read
    have shallow : ∀ part ∈ strip parts, part.depth ≤ Tree.levelsAll children :=
      fun part member => inner part (mem_of_mem_strip member)
    rw [ofRule_strip] at made
    rw [Tree.levels, Nat.add_comm]
    exact ofRule_depth shallow made

theorem ofTrees_depth : ∀ (trees : List Tree) (parts : List Part), ofTrees trees = .ok parts →
    ∀ part ∈ parts, part.depth ≤ Tree.levelsAll trees
  | [], parts, read => by
    cases read
    exact nofun
  | tree :: trees, all, read => by
    obtain ⟨part, parts, rfl, means, read⟩ := ofTrees_cons_ok read
    have first := Nat.le_trans (means_depth tree part means)
      (Nat.le_max_left _ (Tree.levelsAll trees))
    have others := fun other member => Nat.le_trans (ofTrees_depth trees parts read other member)
      (Nat.le_max_right tree.levels _)
    exact List.forall_mem_cons.mpr ⟨first, others⟩

end

end Part

namespace Tree

/-- However many tokens there are, the tree that is read has a bounded height, and it stands for a
document of no more levels than it has itself. -/
theorem ofTokens_height {tokens : List Token} {tree : Tree} (read : ofTokens tokens = .ok tree) :
    tree.height ≤ maxTermHeight + 5 * maxNesting + 3 ∧
      ∃ document, Document.ofTree tree = .ok document ∧ document.depth ≤ tree.height := by
  have low := (ofTokens_low read).height
  refine ⟨Nat.le_trans low (by decide), ?_⟩
  obtain ⟨document, means⟩ := Part.ofTokens_means read
  refine ⟨document, ?_, ?_⟩
  · rw [Document.ofTree, means]
  · rw [height_eq]
    exact Part.means_depth tree (.document document) means

/-- The tokens of `b { c = f([1].d, -2) }`. -/
theorem ofTokens_height_block :
    let tokens : List Token :=
      [⟨.ident "b", ⟨1, 1⟩⟩, ⟨.leftBrace, ⟨1, 3⟩⟩, ⟨.ident "c", ⟨1, 5⟩⟩, ⟨.assign, ⟨1, 7⟩⟩,
        ⟨.ident "f", ⟨1, 9⟩⟩, ⟨.leftParen, ⟨1, 10⟩⟩, ⟨.leftBracket, ⟨1, 11⟩⟩, ⟨.int 1, ⟨1, 12⟩⟩,
        ⟨.rightBracket, ⟨1, 13⟩⟩, ⟨.dot, ⟨1, 14⟩⟩, ⟨.ident "d", ⟨1, 15⟩⟩, ⟨.comma, ⟨1, 16⟩⟩,
        ⟨.minus, ⟨1, 18⟩⟩, ⟨.int 2, ⟨1, 19⟩⟩, ⟨.rightParen, ⟨1, 20⟩⟩, ⟨.rightBrace, ⟨1, 22⟩⟩,
        ⟨.eof, ⟨1, 23⟩⟩]
    ∃ tree, ofTokens tokens = .ok tree ∧ tree.height ≤ maxTermHeight + 5 * maxNesting + 3 ∧
      ∃ document, Document.ofTree tree = .ok document ∧ document.depth ≤ tree.height := by
  intro tokens
  have accepted : (ofTokens tokens).toOption.any (fun _ => true) = true := by decide +kernel
  obtain ⟨tree, read, _⟩ := exists_of_any accepted
  exact ⟨tree, read, ofTokens_height read⟩

end Tree

end ConfigLang
