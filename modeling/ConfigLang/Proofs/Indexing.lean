import ConfigLang.Proofs.Entries
import ConfigLang.Proofs.Inline
import ConfigLang.Proofs.Limits
import ConfigLang.Proofs.Productions
/-!
Where the indexes of a document come from. Each was held by an index node of the tree, which takes
literals of every kind, and only a float or a keyword below it makes it other than an integer or a
string.
-/

set_option autoImplicit false

namespace ConfigLang

/-- Whether a literal is an integer or a string, as an index should be. -/
def Scalar.isKey : Scalar → Bool
  | .int _ | .string _ => true
  | _ => false

/-- Whether a token can stand for a literal that is neither an integer nor a string. -/
def Kind.isFloatOrKeyword : Kind → Bool
  | .float _ => true
  | .ident name => name = "true" || name = "false" || name = "null"
  | _ => false

namespace Expression

mutual

/-- The indexes in an expression, at any depth. -/
def indexes : Expression → List Scalar
  | literal _ | identifier _ => []
  | array items => indexesAll items
  | object fields => indexesFields fields
  | call _ arguments => indexesAll arguments
  | getAttr on _ | attrSplat on | indexSplat on => indexes on
  | getIndex on index => indexes on ++ [index]
  | unary _ operand => indexes operand
  | binary _ left right => indexes left ++ indexes right

def indexesAll : List Expression → List Scalar
  | [] => []
  | item :: rest => indexes item ++ indexesAll rest

def indexesFields : List (String × Expression) → List Scalar
  | [] => []
  | (_, value) :: rest => indexes value ++ indexesFields rest

end

theorem indexesAll_eq (items : List Expression) : indexesAll items = items.flatMap indexes := by
  induction items with
  | nil => rfl
  | cons item items ih => rw [indexesAll, ih, List.flatMap_cons]

theorem indexesFields_eq (fields : List (String × Expression)) :
    indexesFields fields = fields.flatMap fun field => field.2.indexes := by
  induction fields with
  | nil => rfl
  | cons field fields ih => rw [indexesFields, ih, List.flatMap_cons]

end Expression

namespace Statement

mutual

/-- The indexes in a statement, at any depth. -/
def indexes : Statement → List Scalar
  | assign _ value => value.indexes
  | block _ labels body => Expression.indexesAll labels ++ indexesAll body

def indexesAll : List Statement → List Scalar
  | [] => []
  | statement :: rest => indexes statement ++ indexesAll rest

end

theorem indexesAll_eq (statements : List Statement) :
    indexesAll statements = statements.flatMap indexes := by
  induction statements with
  | nil => rfl
  | cons statement statements ih => rw [indexesAll, ih, List.flatMap_cons]

end Statement

namespace Part

/-- The indexes in what a node stands for. A step to an index counts as one. -/
def indexes : Part → List Scalar
  | token _ | newline | name _ | primitive _ | operator _ => []
  | expression value => value.indexes
  | statement value => value.indexes
  | body statements => Statement.indexesAll statements
  | arguments values => Expression.indexesAll values
  | element _ value => value.indexes
  | access (.index value) => [value]
  | access _ => []
  | operation _ right => right.indexes
  | document value => Statement.indexesAll value.body

section Productions

variable {rule : Rule} {parts : List Part} {part : Part}

theorem toExpression_indexes {value : Expression} (taken : part.toExpression = .ok value) :
    part.indexes = value.indexes := by
  rcases toExpression_eq_ok_iff.mp taken with rfl | ⟨scalar, rfl, rfl⟩
  · rfl
  · rfl

theorem toStatement_indexes {value : Statement} (taken : part.toStatement = .ok value) :
    part.indexes = value.indexes := by
  cases part with
  | statement =>
      cases taken
      rfl
  | _ => cases taken

theorem toKey_indexes {key : String} (taken : part.toKey = .ok key) : part.indexes = [] := by
  cases part with
  | name | primitive => rfl
  | _ => cases taken

theorem labels_indexes {label : Expression} (labels : Labels part label) :
    part.indexes = label.indexes := by
  cases labels with
  | name | string => rfl

/-- What is taken from parts one by one has their indexes. -/
theorem flatMap_indexes {α : Type} {Takes : Part → α → Prop} {measure : α → List Scalar}
    {values : List α} (taken : List.Forall₂ Takes parts values)
    (each : ∀ part value, Takes part value → part.indexes = measure value) :
    parts.flatMap indexes = values.flatMap measure := by
  induction taken with
  | nil => rfl
  | cons first _ ih => rw [List.flatMap_cons, List.flatMap_cons, each _ _ first, ih]

theorem express_indexes {values : List Expression} (express : Express parts values) :
    parts.flatMap indexes = Expression.indexesAll values := by
  rw [Expression.indexesAll_eq, flatMap_indexes express fun _ _ => toExpression_indexes]

theorem ofName_indexes (word : String) : (ofName word).indexes = [] := by
  unfold ofName
  split
  · rfl
  · split
    · rfl
    · split
      · rfl
      · rfl

theorem withBody_indexes (parts : List Part) :
    (withBody parts).flatMap indexes = parts.flatMap indexes := by
  unfold withBody
  split
  · simp [indexes, Statement.indexesAll]
  · simp [indexes, Statement.indexesAll]
  · rfl

theorem block_indexes {title : String} {heads : List Part} {labels : List Expression}
    {statements : List Statement} (labelled : List.Forall₂ Labels heads labels)
    (whole : withBody parts = .name title :: (heads ++ [.body statements])) :
    parts.flatMap indexes = (Statement.block title labels statements).indexes := by
  rw [← withBody_indexes, whole, List.flatMap_cons, List.flatMap_append,
    flatMap_indexes labelled fun _ _ => labels_indexes, Statement.indexes, Expression.indexesAll_eq]
  simp [indexes]

/-- An object has no other indexes than the elements that were given. -/
theorem ofList_indexes (entries : List (String × Expression)) :
    ∀ index ∈ Expression.indexesFields (Fields.ofList entries),
      index ∈ Expression.indexesFields entries := by
  have given : ∀ entry ∈ entries, ∀ index ∈ entry.2.indexes,
      index ∈ Expression.indexesFields entries := by
    intro entry member index inner
    rw [Expression.indexesFields_eq]
    exact List.mem_flatMap_of_mem member inner
  rw [Expression.indexesFields_eq (Fields.ofList entries), List.forall_mem_flatMap]
  exact Fields.forall_ofList
    (P := fun value : Expression =>
      ∀ index ∈ value.indexes, index ∈ Expression.indexesFields entries) given

/-- A production adds no index to those of its children, but for an index node. -/
theorem produces_indexes (produces : Produces rule parts part) :
    ∀ index ∈ part.indexes, index ∈ parts.flatMap indexes ∨
      rule = .index ∧ ∃ child, parts = [child] ∧ child.toExpression = .ok (.literal index) := by
  have same : parts.flatMap indexes = part.indexes → ∀ index ∈ part.indexes,
      index ∈ parts.flatMap indexes ∨ rule = .index ∧
        ∃ child, parts = [child] ∧ child.toExpression = .ok (.literal index) := by
    intro equal index member
    rw [equal]
    exact .inl member
  cases produces with
  | newLines | blank | identifier | int | float | string | callNone | getAttr | attrSplat
  | fullSplat | binaryOperator => exact nofun
  | index is =>
      rintro index (_ | ⟨_, ⟨⟩⟩)
      exact .inr ⟨rfl, _, rfl, is⟩
  | object =>
      intro index member
      refine .inl ?_
      rw [List.flatMap_map]
      exact Expression.indexesFields_eq _ ▸ ofList_indexes _ index member
  | start => exact same (List.append_nil _)
  | body inner =>
      refine same ?_
      rw [flatMap_indexes inner fun _ _ => toStatement_indexes, indexes, Statement.indexesAll_eq]
  | block whole labelled => exact same (block_indexes labelled whole)
  | tuple express => exact same (express_indexes express)
  | arguments express => exact same (express_indexes express)
  | call => exact same (List.append_nil _)
  | word => exact same (by rw [indexes, ofName_indexes]; rfl)
  | objectElement named is =>
      refine same ?_
      simp only [List.flatMap_cons, List.flatMap_nil, List.append_nil, toKey_indexes named,
        toExpression_indexes is]
      rfl
  | getAttrTerm is | attrSplatTerm is | fullSplatTerm is =>
      refine same ?_
      rw [List.flatMap_cons, toExpression_indexes is]
      exact List.append_nil _
  | attr is | term is | indexTerm is | unary _ is | binary is | binaryTerm is =>
      refine same ?_
      simp only [List.flatMap_cons, List.flatMap_nil, List.append_nil, toExpression_indexes is]
      rfl

end Productions

/-! ### Literals

What a part shows of the tokens below it, as far as this decides which literals it can stand for. -/

/-- The literal is an integer or a string, unless one of these tokens is a float or a keyword. -/
def IsKeyUnless (Below : Token → Prop) (value : Scalar) : Prop :=
  value.isKey = true ∨ ∃ leaf, Below leaf ∧ leaf.kind.isFloatOrKeyword = true

/-- The part can come from these tokens: a token and a name are among them, and a literal is as
they let it be. -/
def IsFrom (Below : Token → Prop) : Part → Prop
  | .token leaf => Below leaf
  | .name word => ∃ leaf, Below leaf ∧ leaf.kind = .ident word
  | .primitive value => IsKeyUnless Below value
  | .expression value => ∀ scalar, value = .literal scalar → IsKeyUnless Below scalar
  | _ => True

section Literals

variable {Below More : Token → Prop} {rule : Rule} {parts : List Part} {part : Part}

theorem IsKeyUnless.mono {value : Scalar} (more : ∀ leaf, Below leaf → More leaf)
    (key : IsKeyUnless Below value) : IsKeyUnless More value :=
  key.imp_right fun ⟨leaf, below, is⟩ => ⟨leaf, more leaf below, is⟩

theorem IsFrom.mono (more : ∀ leaf, Below leaf → More leaf) (comes : IsFrom Below part) :
    IsFrom More part := by
  cases part with
  | token leaf => exact more leaf comes
  | name =>
      obtain ⟨leaf, below, is⟩ := comes
      exact ⟨leaf, more leaf below, is⟩
  | primitive => exact IsKeyUnless.mono more comes
  | expression => exact fun scalar is => (comes scalar is).mono more
  | _ => trivial

theorem isFrom_ofName {word : String} (named : IsFrom Below (.name word)) :
    IsFrom Below (.expression (ofName word)) := by
  obtain ⟨leaf, below, is⟩ := named
  have keyword (reserved : word = "true" ∨ word = "false" ∨ word = "null") (scalar : Scalar) :
      IsKeyUnless Below scalar := by
    refine .inr ⟨leaf, below, ?_⟩
    rw [is]
    simpa [Kind.isFloatOrKeyword, or_assoc] using reserved
  intro scalar literal
  unfold ofName at literal
  split at literal
  next same => exact keyword (.inl same) scalar
  next =>
    split at literal
    next same => exact keyword (.inr (.inl same)) scalar
    next =>
      split at literal
      next same => exact keyword (.inr (.inr same)) scalar
      next => cases literal

theorem isFrom_toExpression {value : Expression} (comes : IsFrom Below part)
    (taken : part.toExpression = .ok value) : IsFrom Below (.expression value) := by
  rcases toExpression_eq_ok_iff.mp taken with rfl | ⟨scalar, rfl, rfl⟩
  · exact comes
  · rintro _ ⟨⟩
    exact comes

/-- A production comes from the tokens that its children come from. -/
theorem produces_isFrom (produces : Produces rule parts part)
    (inner : ∀ part ∈ parts, IsFrom Below part) : IsFrom Below part := by
  have first {child : Part} (head : child ∈ parts) : IsFrom Below child := inner child head
  cases produces with
  | identifier is => exact ⟨_, first List.mem_cons_self, is⟩
  | word => exact isFrom_ofName (first List.mem_cons_self)
  | term is => exact isFrom_toExpression (first List.mem_cons_self) is
  | string => exact .inl rfl
  | int =>
      rintro _ ⟨⟩
      exact .inl rfl
  | float is =>
      rintro _ ⟨⟩
      exact .inr ⟨_, first List.mem_cons_self, by rw [is]; rfl⟩
  | newLines | blank | start | body | attr | block | objectElement | arguments | getAttr | index
  | attrSplat | fullSplat | binaryTerm | binaryOperator => trivial
  | _ =>
      intro scalar literal
      cases literal

end Literals

/-! ### Trees -/

theorem mem_of_mem_ite {first one : Part} {others : List Part}
    (member : one ∈ if first.isNewline then others else first :: others) :
    one = first ∨ one ∈ others := by
  split at member
  · exact .inr member
  · exact List.mem_cons.mp member

/-- One of these trees stands for the literal, and the others for nothing. -/
def HoldLiteral (trees : List Tree) (value : Scalar) : Prop :=
  ∃ part, MeanAll trees [part] ∧ part.toExpression = .ok (.literal value)

/-- An index node takes a literal of any kind, and nothing else. -/
theorem ofTree_index_eq_ok_iff {line : Nat} {children : List Tree} {part : Part} :
    ofTree (.node .index line children) = .ok part ↔
      ∃ value, part = .access (.index value) ∧ HoldLiteral children value := by
  constructor
  · intro read
    obtain ⟨parts, means, produced⟩ := means_node_produces read
    cases produced with
    | index is => exact ⟨_, rfl, _, means, is⟩
  · rintro ⟨value, rfl, only, means, is⟩
    refine means_node means ?_
    rcases toExpression_eq_ok_iff.mp is with rfl | ⟨scalar, rfl, ⟨⟩⟩
    · rfl
    · rfl

mutual

/-- A tree comes from its leaves. -/
theorem means_isFrom : ∀ (tree : Tree) (part : Part), Means tree part →
    IsFrom (fun leaf => .leaf leaf ∈ tree.subtrees) part
  | .leaf _, _, means => by
    cases means
    exact List.mem_cons_self
  | .node _ _ children, _, means => by
    obtain ⟨parts, inner, produced⟩ := means_node_produces means
    refine produces_isFrom produced fun part member => ?_
    exact (meanAll_isFrom children parts inner part member).mono fun _ => List.mem_cons_of_mem _

theorem meanAll_isFrom : ∀ (trees : List Tree) (parts : List Part), MeanAll trees parts →
    ∀ part ∈ parts, IsFrom (fun leaf => .leaf leaf ∈ Tree.subtreesAll trees) part
  | [], _, means => by
    obtain ⟨_, ⟨⟩, rfl⟩ := means
    exact fun part member => by cases member
  | tree :: trees, _, means => by
    obtain ⟨part, parts, first, rest, rfl⟩ := meanAll_cons_ok means
    intro one member
    rcases mem_of_mem_ite member with rfl | later
    · exact (means_isFrom tree one first).mono fun _ => List.mem_append_left _
    · exact (meanAll_isFrom trees parts rest one later).mono fun _ => List.mem_append_right _

end

/-- An index node among these nodes holds the literal. -/
def IndexedBy (nodes : List Tree) (index : Scalar) : Prop :=
  ∃ line children, .node .index line children ∈ nodes ∧ HoldLiteral children index

theorem IndexedBy.mono {nodes more : List Tree} {index : Scalar} (subset : nodes ⊆ more)
    (held : IndexedBy nodes index) : IndexedBy more index := by
  obtain ⟨line, children, member, holds⟩ := held
  exact ⟨line, children, subset member, holds⟩

mutual

/-- An index is held by an index node of the tree, at whatever depth it comes out. -/
theorem means_indexes : ∀ (tree : Tree) (part : Part), Means tree part →
    ∀ index ∈ part.indexes, IndexedBy tree.subtrees index
  | .leaf _, _, means => by
    cases means
    exact fun index member => by cases member
  | .node rule line children, _, means => by
    obtain ⟨parts, inner, produced⟩ := means_node_produces means
    intro index member
    rcases produces_indexes produced index member with below | ⟨rfl, child, rfl, is⟩
    · exact (meanAll_indexes children parts inner index below).mono (List.subset_cons_self _ _)
    · exact ⟨line, children, List.mem_cons_self, child, inner, is⟩

theorem meanAll_indexes : ∀ (trees : List Tree) (parts : List Part), MeanAll trees parts →
    ∀ index ∈ parts.flatMap indexes, IndexedBy (Tree.subtreesAll trees) index
  | [], _, means => by
    obtain ⟨_, ⟨⟩, rfl⟩ := means
    exact fun index member => by cases member
  | tree :: trees, _, means => by
    obtain ⟨part, parts, first, rest, rfl⟩ := meanAll_cons_ok means
    intro index member
    obtain ⟨one, among, inner⟩ := List.mem_flatMap.mp member
    rcases mem_of_mem_ite among with rfl | later
    · exact (means_indexes tree one first index inner).mono (List.subset_append_left _ _)
    · have below := List.mem_flatMap_of_mem later inner
      exact (meanAll_indexes trees parts rest index below).mono (List.subset_append_right _ _)

end

theorem isKey_of_holdLiteral {children : List Tree} {value : Scalar}
    (holds : HoldLiteral children value) :
    IsKeyUnless (fun leaf => .leaf leaf ∈ Tree.subtreesAll children) value := by
  obtain ⟨only, means, is⟩ := holds
  have comes := meanAll_isFrom children [only] means only List.mem_cons_self
  exact isFrom_toExpression comes is value rfl

/-- Every index in what a tree stands for was held by an index node of the tree, and is an integer or
a string unless that node has a float or a keyword below it; an index node takes a literal of any
kind, and nothing else. -/
theorem ofTree_indexes {tree : Tree} {part : Part} (read : ofTree tree = .ok part) :
    (∀ index ∈ part.indexes, ∃ line children, .node .index line children ∈ tree.subtrees ∧
      HoldLiteral children index ∧
      (index.isKey = true ∨ ∃ leaf, .leaf leaf ∈ Tree.subtreesAll children ∧
        leaf.kind.isFloatOrKeyword = true)) ∧
    ∀ line children part, ofTree (.node .index line children) = .ok part ↔
      ∃ value, part = .access (.index value) ∧ HoldLiteral children value := by
  refine ⟨fun index member => ?_, fun line children part => ofTree_index_eq_ok_iff⟩
  obtain ⟨line, children, among, holds⟩ := means_indexes tree part read index member
  exact ⟨line, children, among, holds, isKey_of_holdLiteral holds⟩

theorem ofTree_indexes_string :
    let term : Tree := .node .term 1 [Grammar.leaf .identifier ⟨.ident "a", .start⟩]
    let held : List Tree := [Grammar.leaf .string ⟨.string "k", .start⟩]
    let tree : Tree := .node .indexTerm 1 [term, .node .index 1 held]
    ofTree tree = .ok (.expression (.getIndex (.identifier "a") (.string "k"))) ∧
      ∃ line children, .node .index line children ∈ tree.subtrees ∧
        HoldLiteral children (.string "k") ∧
        ((Scalar.string "k").isKey = true ∨ ∃ leaf, .leaf leaf ∈ Tree.subtreesAll children ∧
          leaf.kind.isFloatOrKeyword = true) := by
  intro term held tree
  have read : ofTree tree = .ok (.expression (.getIndex (.identifier "a") (.string "k"))) := rfl
  exact ⟨read, (ofTree_indexes read).1 (.string "k") List.mem_cons_self⟩

/-- A float is taken as an index, of an index node that is well-formed in every other way. -/
theorem ofTree_indexes_float :
    ∃ tree part value, ofTree tree = .ok part ∧ part.indexes = [value] ∧ value.isKey = false :=
  let number : Binary64 := ⟨0x3FF8000000000000⟩
  let term : Tree := .node .term 1 [Grammar.leaf .identifier ⟨.ident "a", .start⟩]
  let held : List Tree := [Grammar.leaf .float ⟨.float number, .start⟩]
  ⟨.node .indexTerm 1 [term, .node .index 1 held],
    .expression (.getIndex (.identifier "a") (.float number)), .float number, rfl, rfl, rfl⟩

end Part

end ConfigLang
