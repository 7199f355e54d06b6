import ConfigLang.Proofs.Places
/-!
What a tree stands for does not depend on the newlines in it. A tree and the tree that is left
without them stand for the same part, or are malformed at the same node in the same way.
-/

set_option autoImplicit false

namespace ConfigLang

namespace Tree

/-- Whether this is a newline, or a run of newlines. -/
def isNewline : Tree → Bool
  | leaf token => token.kind = .newline
  | node rule _ _ => rule = .newLines

mutual

/-- The tree without the newlines in it. -/
def inline : Tree → Tree
  | leaf token => leaf token
  | node rule line children => node rule line (inlineAll children)

/-- The trees that are no newlines, each without the newlines in it. -/
def inlineAll : List Tree → List Tree
  | [] => []
  | child :: rest =>
    if child.isNewline then inlineAll rest else inline child :: inlineAll rest

end

variable {tree other : Tree} {trees others : List Tree}

@[simp] theorem inline_leaf (token : Token) : (leaf token).inline = leaf token := rfl

@[simp] theorem inline_node (rule : Rule) (line : Nat) (children : List Tree) :
    (node rule line children).inline = node rule line (inlineAll children) := rfl

@[simp] theorem inlineAll_nil : inlineAll [] = [] := rfl

theorem inlineAll_cons_of_newline (newline : tree.isNewline = true) :
    inlineAll (tree :: trees) = inlineAll trees := by
  rw [inlineAll, if_pos newline]

theorem inlineAll_cons_of_not (counts : tree.isNewline = false) :
    inlineAll (tree :: trees) = tree.inline :: inlineAll trees := by
  rw [inlineAll, if_neg (Bool.eq_false_iff.mp counts)]

@[simp] theorem inlineAll_append :
    inlineAll (trees ++ others) = inlineAll trees ++ inlineAll others := by
  induction trees with
  | nil => rfl
  | cons tree trees ih =>
      rw [List.cons_append, inlineAll, inlineAll, ih]
      split
      · rfl
      · rfl

@[simp] theorem inlineAll_newLines (lines : List Token) :
    inlineAll (Grammar.newLines lines) = [] := by
  cases lines with
  | nil | cons => rfl

theorem isNewline_inline (tree : Tree) : tree.inline.isNewline = tree.isNewline := by
  cases tree with
  | leaf | node => rfl

theorem isNewline_unplaced (tree : Tree) : tree.unplaced.isNewline = tree.isNewline := by
  cases tree with
  | leaf => rfl
  | node rule line children => rw [unplaced_node, isNewline, isNewline]

theorem isStatement_inline (tree : Tree) : isStatement tree.inline = isStatement tree := by
  cases tree with
  | leaf => rfl
  | node rule line children =>
      cases rule with
      | _ => rfl

theorem isStatement_of_newline (newline : tree.isNewline = true) : isStatement tree = false := by
  cases tree with
  | leaf => rfl
  | node rule line children =>
      have is : rule = .newLines := of_decide_eq_true newline
      rw [is]
      rfl

/-- The statements are not among the newlines. -/
theorem any_isStatement_inlineAll (trees : List Tree) :
    (inlineAll trees).any isStatement = trees.any isStatement := by
  induction trees with
  | nil => rfl
  | cons tree trees ih =>
      cases newline : tree.isNewline with
      | true =>
          rw [inlineAll_cons_of_newline newline, List.any_cons, isStatement_of_newline newline, ih,
            Bool.false_or]
      | false =>
          rw [inlineAll_cons_of_not newline, List.any_cons, List.any_cons, isStatement_inline, ih]

end Tree

namespace Part

theorem meanAll_cons_ok {tree : Tree} {trees : List Tree} {all : List Part}
    (means : MeanAll (tree :: trees) all) :
    ∃ part parts, Means tree part ∧ MeanAll trees parts ∧
      all = if part.isNewline then parts else part :: parts := by
  obtain ⟨every, read, rfl⟩ := means
  obtain ⟨part, parts, rfl, first, rest⟩ := ofTrees_cons_ok read
  refine ⟨part, strip parts, first, ⟨parts, rest, rfl⟩, ?_⟩
  cases newline : part.isNewline with
  | true => exact strip_cons_of_newline newline parts
  | false => exact strip_cons_of_counts newline parts

theorem isNewline_of_means {tree : Tree} {part : Part} (means : Means tree part)
    (newline : tree.isNewline = true) : part.isNewline = true := by
  cases tree with
  | leaf token =>
      cases means
      exact newline
  | node rule line children =>
      have is : rule = .newLines := of_decide_eq_true newline
      subst is
      obtain ⟨parts, _, made⟩ := means_node_ok means
      cases made
      rfl

mutual

/-- Without its newlines a tree stands for what it stands for with them. -/
theorem means_inline : ∀ (tree : Tree) (part : Part), Means tree part → Means tree.inline part
  | .leaf _, _, means => means
  | .node _ _ children, _, means => by
    obtain ⟨parts, inner, made⟩ := means_node_ok means
    exact means_node (meanAll_inline children parts inner) made

theorem meanAll_inline : ∀ (trees : List Tree) (parts : List Part),
    MeanAll trees parts → MeanAll (Tree.inlineAll trees) parts
  | [], _, means => means
  | tree :: trees, _, means => by
    obtain ⟨part, parts, first, rest, rfl⟩ := meanAll_cons_ok means
    have others := meanAll_inline trees parts rest
    cases newline : tree.isNewline with
    | true =>
        rw [Tree.inlineAll_cons_of_newline newline, if_pos (isNewline_of_means first newline)]
        exact others
    | false =>
        have inner := means_inline tree part first
        rw [Tree.inlineAll_cons_of_not newline]
        split
        next skipped => exact .skip inner skipped others
        next counts => exact .cons inner (Bool.eq_false_iff.mpr counts) others

end

/-- Trees that differ in places and newlines only stand for the same document. -/
theorem document_of_alike {tree other : Tree} {document result : Document}
    (alike : Tree.Alike tree.inline other.inline) (first : Means tree (.document document))
    (second : Means other (.document result)) : document = result := by
  obtain ⟨part, means, same⟩ := means_alike _ _ _ alike (means_inline tree _ first)
  have again : Means other.inline (.document result) := means_inline other _ second
  cases Except.ok.inj (means.symm.trans again)
  exact Part.document.inj same

end Part

/-! ### Malformed trees -/

namespace Tree

/-- Whether this is a newline token. -/
def isFeed : Tree → Bool
  | leaf token => token.kind = .newline
  | node _ _ _ => false

mutual

/-- Whether every run of newlines holds newline tokens only. -/
def tidy : Tree → Bool
  | leaf _ => true
  | node rule _ children => (rule ≠ .newLines || children.all isFeed) && tidyAll children

def tidyAll : List Tree → Bool
  | [] => true
  | child :: rest => tidy child && tidyAll rest

end

end Tree

namespace Part

theorem ofTrees_feeds {trees : List Tree} (feeds : trees.all Tree.isFeed = true) :
    ∃ parts, ofTrees trees = .ok parts := by
  induction trees with
  | nil => exact ⟨[], rfl⟩
  | cons tree trees ih =>
      rw [List.all_cons, Bool.and_eq_true] at feeds
      obtain ⟨parts, rest⟩ := ih feeds.2
      cases tree with
      | leaf token => exact ⟨.token token :: parts, ofTrees_cons rfl rest⟩
      | node rule line children => exact absurd feeds.1 Bool.false_ne_true

/-- A run of newlines is never malformed itself, and neither is what it holds. -/
theorem means_of_newline {tree : Tree} (newline : tree.isNewline = true)
    (tidy : tree.tidy = true) : ∃ part, Means tree part := by
  cases tree with
  | leaf token => exact ⟨_, rfl⟩
  | node rule line children =>
      have is : rule = .newLines := of_decide_eq_true newline
      subst is
      rw [Tree.tidy, Bool.and_eq_true] at tidy
      obtain ⟨parts, read⟩ := ofTrees_feeds (by simpa using tidy.1)
      exact ⟨.newline, means_node ⟨parts, read, rfl⟩ rfl⟩

theorem ofTrees_cons_error {tree : Tree} {trees : List Tree} {malformed : Malformed} :
    ofTrees (tree :: trees) = .error malformed ↔
      ofTree tree = .error malformed ∨
        ∃ part, Means tree part ∧ ofTrees trees = .error malformed := by
  change (ofTree tree >>= fun part => ofTrees trees >>= fun parts => pure (part :: parts)) = _ ↔ _
  unfold Means
  cases ofTree tree with
  | error other => simp [Except.bind, bind]
  | ok part =>
      cases ofTrees trees with
      | error other => simp [Except.bind, bind]
      | ok parts => simp [Except.bind, bind, pure, Except.pure]

/-- A tree is malformed at a node below or at its root. -/
theorem ofTree_node_error {rule : Rule} {line : Nat} {children : List Tree}
    {malformed : Malformed} :
    ofTree (.node rule line children) = .error malformed ↔
      ofTrees children = .error malformed ∨
        ∃ parts flaw, ofTrees children = .ok parts ∧ ofRule rule parts = .error flaw ∧
          malformed = ⟨rule, line, flaw⟩ := by
  change (ofTrees children >>= ofNode rule line) = _ ↔ _
  cases ofTrees children with
  | error other => simp [Except.bind, bind]
  | ok parts =>
      change ofNode rule line parts = _ ↔ _
      unfold ofNode
      cases made : ofRule rule parts with
      | ok part => simp [made]
      | error flaw => simp [made, eq_comm]

mutual

theorem error_inline : ∀ (tree : Tree) (malformed : Malformed), tree.tidy = true →
    ofTree tree = .error malformed → ofTree tree.inline = .error malformed
  | .leaf _, _, _, failed => failed
  | .node rule line children, malformed, tidy, failed => by
    rw [Tree.tidy, Bool.and_eq_true] at tidy
    rw [Tree.inline, ofTree_node_error]
    rcases ofTree_node_error.mp failed with below | ⟨parts, flaw, inner, made, is⟩
    · exact .inl (errorAll_inline children malformed tidy.2 below)
    · obtain ⟨others, read, same⟩ := meanAll_inline children (strip parts) ⟨parts, inner, rfl⟩
      refine .inr ⟨others, flaw, read, ?_, is⟩
      rw [← ofRule_strip, same, ofRule_strip, made]

theorem errorAll_inline : ∀ (trees : List Tree) (malformed : Malformed),
    Tree.tidyAll trees = true → ofTrees trees = .error malformed →
    ofTrees (Tree.inlineAll trees) = .error malformed
  | [], _, _, failed => failed
  | tree :: trees, malformed, tidy, failed => by
    rw [Tree.tidyAll, Bool.and_eq_true] at tidy
    cases newline : tree.isNewline with
    | true =>
        obtain ⟨part, means⟩ := means_of_newline newline tidy.1
        rw [Tree.inlineAll_cons_of_newline newline]
        rcases ofTrees_cons_error.mp failed with here | ⟨_, _, later⟩
        · cases here.symm.trans means
        · exact errorAll_inline trees malformed tidy.2 later
    | false =>
        rw [Tree.inlineAll_cons_of_not newline, ofTrees_cons_error]
        rcases ofTrees_cons_error.mp failed with here | ⟨part, means, later⟩
        · exact .inl (error_inline tree malformed tidy.1 here)
        · exact .inr ⟨part, means_inline tree part means,
            errorAll_inline trees malformed tidy.2 later⟩

end

/-- A tree and the tree without its newlines stand for the same part, or are malformed at the same
production, line and in the same way. The tree may have any shape, if only its runs of newlines hold
nothing but newlines. -/
theorem ofTree_inline (tree : Tree) (tidy : tree.tidy = true) :
    ofTree tree.inline = ofTree tree := by
  cases read : ofTree tree with
  | ok part => exact means_inline tree part read
  | error malformed => exact error_inline tree malformed tidy read

/-- A block that ends with a number and newlines. -/
theorem ofTree_inline_block :
    let feed : Tree := .leaf ⟨.newline, .start⟩
    let run : Tree := .node .newLines 2 [feed, feed]
    let name : Tree := Grammar.leaf .identifier ⟨.ident "b", .start⟩
    let number : Tree := Grammar.leaf .int ⟨.int 1, .start⟩
    let tree : Tree := .node .body 1 [run, .node .block 3 [run, name, feed, number, run], feed]
    tree.tidy = true ∧ tree.inline = .node .body 1 [.node .block 3 [name, number]] ∧
      ofTree tree = .error ⟨.block, 3, .noBody⟩ ∧ ofTree tree.inline = ofTree tree := by
  intro feed run name number tree
  have tidy : tree.tidy = true := rfl
  exact ⟨tidy, rfl, rfl, ofTree_inline tree tidy⟩

end Part

end ConfigLang
