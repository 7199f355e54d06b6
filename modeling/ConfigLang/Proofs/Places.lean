import ConfigLang.Proofs.Height
import ConfigLang.Proofs.Lowering
/-!
What a tree stands for does not depend on where its tokens are. Trees that are the same but for
places and lines have the same height and stand for the same part.
-/

set_option autoImplicit false

namespace ConfigLang

/-- The token at the start of a text. -/
def Token.unplaced (token : Token) : Token :=
  ⟨token.kind, .start⟩

theorem Token.unplaced_inj {token other : Token} :
    token.unplaced = other.unplaced ↔ token.kind = other.kind := by
  simp [unplaced]

namespace Tree

mutual

/-- The tree without places and lines. -/
def unplaced : Tree → Tree
  | leaf token => leaf token.unplaced
  | node rule _ children => node rule 0 (unplacedAll children)

def unplacedAll : List Tree → List Tree
  | [] => []
  | child :: rest => unplaced child :: unplacedAll rest

end

theorem unplacedAll_eq (trees : List Tree) : unplacedAll trees = trees.map unplaced := by
  induction trees with
  | nil => rfl
  | cons tree trees ih => rw [unplacedAll, ih, List.map_cons]

@[simp] theorem unplaced_leaf (token : Token) : (leaf token).unplaced = leaf token.unplaced := rfl

@[simp] theorem unplaced_node (rule : Rule) (line : Nat) (children : List Tree) :
    (node rule line children).unplaced = node rule 0 (children.map unplaced) := by
  rw [unplaced, unplacedAll_eq]

mutual

theorem levels_unplaced : ∀ tree : Tree, tree.unplaced.levels = tree.levels
  | leaf _ => rfl
  | node rule _ children => by
    rw [unplaced, levels, levels, levelsAll_unplaced children]

theorem levelsAll_unplaced : ∀ trees : List Tree, levelsAll (unplacedAll trees) = levelsAll trees
  | [] => rfl
  | child :: rest => by
    rw [unplacedAll, levelsAll, levelsAll, levels_unplaced child, levelsAll_unplaced rest]

end

/-- The two trees differ in places and lines only. -/
def Alike (tree other : Tree) : Prop :=
  tree.unplaced = other.unplaced

/-- The trees differ in places and lines only, one by one. -/
def AlikeAll (trees others : List Tree) : Prop :=
  trees.map unplaced = others.map unplaced

theorem Alike.height {tree other : Tree} (alike : Alike tree other) :
    tree.height = other.height := by
  rw [height_eq, height_eq, ← levels_unplaced tree, ← levels_unplaced other, alike]

theorem isStatement_unplaced (tree : Tree) : isStatement tree.unplaced = isStatement tree := by
  cases tree with
  | leaf => rfl
  | node rule line children =>
      rw [unplaced_node]
      cases rule with
      | attr | block => rfl
      | _ => rfl

theorem unplaced_production (rule : Rule) {token other : Token} (same : token.kind = other.kind) :
    (Grammar.leaf rule token).unplaced = (Grammar.leaf rule other).unplaced := by
  simp [Grammar.leaf, Token.unplaced, same]

theorem unplaced_newLines {lines others : List Token}
    (same : lines.map Token.kind = others.map Token.kind) :
    (Grammar.newLines lines).map unplaced = (Grammar.newLines others).map unplaced := by
  have leaves : ∀ lines : List Token, (lines.map leaf).map unplaced =
      (lines.map Token.kind).map fun kind => leaf ⟨kind, .start⟩ := by
    intro lines
    simp only [List.map_map, Function.comp_def, unplaced_leaf, Token.unplaced]
  cases lines with
  | nil =>
      cases List.map_eq_nil_iff.mp same.symm
      rfl
  | cons first lines =>
      obtain ⟨other, others, rfl, _⟩ := List.map_eq_cons_iff.mp same.symm
      simp only [Grammar.newLines, List.map_cons, List.map_nil, unplaced_node]
      rw [← List.map_cons, ← List.map_cons, ← List.map_cons, ← List.map_cons, leaves, leaves, same]

theorem any_isStatement_of_alike {trees others : List Tree} (alike : AlikeAll trees others) :
    trees.any isStatement = others.any isStatement := by
  have blind : ∀ trees : List Tree,
      trees.any isStatement = (trees.map unplaced).any isStatement := by
    intro trees
    rw [List.any_map]
    exact congrArg trees.any (funext fun tree => (isStatement_unplaced tree).symm)
  rw [blind trees, blind others, alike]

theorem unplaced_body (line line' : Nat) {trees others : List Tree}
    (alike : AlikeAll trees others) : AlikeAll (body line trees) (body line' others) := by
  unfold body
  rw [any_isStatement_of_alike alike]
  split
  · simp only [AlikeAll, List.map_cons, List.map_nil, unplaced_node]
    rw [show trees.map unplaced = others.map unplaced from alike]
  · exact alike

end Tree

namespace Part

/-- The part with its token, if it is one, at the start of a text. -/
def unplaced : Part → Part
  | token leaf => .token leaf.unplaced
  | part => part

/-- The parts differ in the places of tokens only, one by one. -/
def AlikeAll (parts others : List Part) : Prop :=
  parts.map unplaced = others.map unplaced

theorem isNewline_unplaced (part : Part) : part.unplaced.isNewline = part.isNewline := by
  cases part with
  | _ => rfl

theorem AlikeAll.inline {parts others : List Part} (alike : AlikeAll parts others) :
    AlikeAll (strip parts) (strip others) := by
  have stripped : ∀ parts : List Part,
      (strip parts).map unplaced = strip (parts.map unplaced) := by
    intro parts
    rw [strip, strip, List.filter_map]
    simp [Function.comp_def, isNewline_unplaced]
  rw [AlikeAll, stripped, stripped, alike]

/-! ### Productions that have no token as a child -/

/-- None of the parts is a token. -/
def Tokenless (parts : List Part) : Prop :=
  ∀ leaf, token leaf ∉ parts

theorem tokenless_nil : Tokenless [] := fun _ => List.not_mem_nil

theorem tokenless_cons {part : Part} {parts : List Part} :
    Tokenless (part :: parts) ↔ (∀ leaf, part ≠ token leaf) ∧ Tokenless parts := by
  simp only [Tokenless, List.mem_cons, not_or, forall_and, ne_eq, eq_comm]

/-- Parts without tokens have no places. -/
theorem AlikeAll.eq {parts others : List Part} (alike : AlikeAll parts others)
    (tokenless : Tokenless parts) : others = parts := by
  induction parts generalizing others with
  | nil => exact List.map_eq_nil_iff.mp alike.symm
  | cons part parts ih =>
      obtain ⟨other, rest, rfl, same, follow⟩ := List.map_eq_cons_iff.mp alike.symm
      obtain ⟨outside, tokenless⟩ := tokenless_cons.mp tokenless
      rw [ih follow.symm tokenless]
      cases part with
      | token leaf => exact absurd rfl (outside leaf)
      | _ =>
          cases other with
          | token => cases same
          | _ => exact congrArg (· :: parts) same

section Tokenless

variable {parts : List Part} {part : Part}

theorem bind_eq_ok_iff {α β : Type} {first : Reading α} {next : α → Reading β} {value : β} :
    (first >>= next) = .ok value ↔ ∃ middle, first = .ok middle ∧ next middle = .ok value := by
  cases first with
  | error flaw => exact ⟨nofun, nofun⟩
  | ok middle =>
      constructor
      · intro made
        exact ⟨middle, rfl, made⟩
      · rintro ⟨_, same, made⟩
        cases same
        exact made

theorem one_eq_ok {only : Part} (read : one parts = .ok only) : strip parts = [only] := by
  unfold one at read
  split at read
  next part kept =>
    cases read
    exact kept
  next => cases read

theorem two_eq_ok {pair : Part × Part} (read : two parts = .ok pair) :
    strip parts = [pair.1, pair.2] := by
  unfold two at read
  split at read
  next first second kept =>
    cases read
    exact kept
  next => cases read

theorem ofSplat_eq_ok {step : Access} (made : ofSplat step parts = .ok part) :
    strip parts = [] ∧ part = .access step := by
  unfold ofSplat at made
  split at made
  next kept =>
    cases made
    exact ⟨kept, rfl⟩
  next => cases made

theorem tokenless_of_mapM {α : Type} {take : Part → Reading α} {values : List α}
    (rejects : ∀ leaf, ∃ flaw, take (token leaf) = .error flaw)
    (taken : parts.mapM take = .ok values) : Tokenless parts := by
  induction parts generalizing values with
  | nil => exact tokenless_nil
  | cons part parts ih =>
      rw [List.mapM_cons, bind_eq_ok_iff] at taken
      obtain ⟨value, first, taken⟩ := taken
      obtain ⟨values, rest, _⟩ := bind_eq_ok_iff.mp taken
      refine tokenless_cons.mpr ⟨?_, ih rest⟩
      rintro leaf rfl
      obtain ⟨flaw, rejected⟩ := rejects leaf
      rw [rejected] at first
      cases first

theorem tokenless_one {only : Part} (outside : ∀ leaf, only ≠ token leaf) : Tokenless [only] :=
  tokenless_cons.mpr ⟨outside, tokenless_nil⟩

theorem tokenless_two {first second : Part} (before : ∀ leaf, first ≠ token leaf)
    (behind : ∀ leaf, second ≠ token leaf) : Tokenless [first, second] :=
  tokenless_cons.mpr ⟨before, tokenless_one behind⟩

theorem not_token_of_toExpression {value : Expression} (taken : part.toExpression = .ok value)
    (leaf : Token) : part ≠ token leaf := by
  rintro rfl
  cases taken

theorem tokenless_start (made : ofStart parts = .ok part) : Tokenless (strip parts) := by
  unfold ofStart at made
  generalize strip parts = kept at made ⊢
  rcases kept with _ | ⟨only, _ | ⟨second, rest⟩⟩
  · exact tokenless_nil
  · cases only with
    | body => exact tokenless_one nofun
    | _ => cases made
  · rw [List.getLast?_eq_some_getLast (List.cons_ne_nil only (second :: rest)),
      List.dropLast_cons_of_ne_nil (List.cons_ne_nil second rest)] at made
    generalize (only :: second :: rest).getLast _ = last at made
    cases last with
    | _ => cases made

theorem tokenless_attr (made : ofAttr parts = .ok part) : Tokenless (strip parts) := by
  obtain ⟨⟨key, value⟩, pair, made⟩ := bind_eq_ok_iff.mp made
  rw [two_eq_ok pair]
  cases key with
  | name =>
      obtain ⟨_, taken, _⟩ := bind_eq_ok_iff.mp made
      exact tokenless_two nofun (not_token_of_toExpression taken)
  | _ => cases made

theorem tokenless_objectElement (made : ofObjectElement parts = .ok part) :
    Tokenless (strip parts) := by
  obtain ⟨⟨key, value⟩, pair, made⟩ := bind_eq_ok_iff.mp made
  obtain ⟨_, keyed, made⟩ := bind_eq_ok_iff.mp made
  obtain ⟨_, taken, _⟩ := bind_eq_ok_iff.mp made
  rw [two_eq_ok pair]
  refine tokenless_two ?_ (not_token_of_toExpression taken)
  rintro leaf rfl
  cases keyed

theorem tokenless_access {wanted : Expression → Access → Option Expression}
    (made : ofAccess wanted parts = .ok part) : Tokenless (strip parts) := by
  obtain ⟨⟨on, step⟩, pair, made⟩ := bind_eq_ok_iff.mp made
  obtain ⟨_, taken, made⟩ := bind_eq_ok_iff.mp made
  rw [two_eq_ok pair]
  refine tokenless_two (not_token_of_toExpression taken) ?_
  rintro leaf rfl
  cases made

theorem tokenless_binary (made : ofBinary parts = .ok part) : Tokenless (strip parts) := by
  obtain ⟨⟨left, rest⟩, pair, made⟩ := bind_eq_ok_iff.mp made
  rw [two_eq_ok pair]
  cases rest with
  | operation =>
      obtain ⟨_, taken, _⟩ := bind_eq_ok_iff.mp made
      exact tokenless_two (not_token_of_toExpression taken) nofun
  | _ => cases made

theorem tokenless_binaryTerm (made : ofBinaryTerm parts = .ok part) : Tokenless (strip parts) := by
  obtain ⟨⟨op, right⟩, pair, made⟩ := bind_eq_ok_iff.mp made
  rw [two_eq_ok pair]
  cases op with
  | operator =>
      obtain ⟨_, taken, _⟩ := bind_eq_ok_iff.mp made
      exact tokenless_two nofun (not_token_of_toExpression taken)
  | _ => cases made

theorem tokenless_term (made : ofTerm parts = .ok part) : Tokenless (strip parts) := by
  obtain ⟨only, single, made⟩ := bind_eq_ok_iff.mp made
  rw [one_eq_ok single]
  cases only with
  | name => exact tokenless_one nofun
  | _ =>
      obtain ⟨_, taken, _⟩ := bind_eq_ok_iff.mp made
      exact tokenless_one (not_token_of_toExpression taken)

theorem tokenless_getAttr (made : ofGetAttr parts = .ok part) : Tokenless (strip parts) := by
  obtain ⟨only, single, made⟩ := bind_eq_ok_iff.mp made
  rw [one_eq_ok single]
  refine tokenless_one ?_
  rintro leaf rfl
  cases made

theorem tokenless_index (made : ofIndex parts = .ok part) : Tokenless (strip parts) := by
  obtain ⟨only, single, made⟩ := bind_eq_ok_iff.mp made
  rw [one_eq_ok single]
  refine tokenless_one ?_
  rintro leaf rfl
  cases made

theorem tokenless_call (made : ofCall parts = .ok part) : Tokenless (strip parts) := by
  unfold ofCall at made
  generalize strip parts = kept at made ⊢
  split at made
  · exact tokenless_nil
  · exact tokenless_one nofun
  · exact tokenless_two nofun nofun
  all_goals cases made

theorem tokenless_splat {step : Access} (made : ofSplat step parts = .ok part) :
    Tokenless (strip parts) := by
  rw [(ofSplat_eq_ok made).1]
  exact tokenless_nil

/-- The title and the labels are no tokens, and the last part is a body or a name or a string. -/
theorem tokenless_block (made : ofBlock parts = .ok part) : Tokenless (strip parts) := by
  unfold ofBlock at made
  generalize strip parts = kept at made ⊢
  have within : ∀ leaf, token leaf ∈ kept → token leaf ∈ withBody kept := by
    intro leaf member
    unfold withBody
    split
    · exact List.mem_append_left _ member
    · exact List.mem_append_left _ member
    · exact member
  intro leaf member
  replace member := within leaf member
  split at made
  next first second rest whole =>
    split at made
    next statements title last =>
      obtain ⟨labels, labelled, _⟩ := bind_eq_ok_iff.mp made
      have inner := tokenless_of_mapM (fun _ => ⟨_, rfl⟩) labelled
      have split : (second :: rest).dropLast ++ [.body statements] = second :: rest :=
        List.dropLast_append_getLast? _ last
      rw [whole, ← split] at member
      simp only [List.mem_cons, List.mem_append, reduceCtorEq, List.not_mem_nil, or_false,
        false_or] at member
      exact inner leaf member
    all_goals cases made
  next => cases made

end Tokenless

/-! ### Any production -/

section Productions

variable {parts others : List Part} {part : Part}

theorem AlikeAll.token {leaf : Token} {rest : List Part}
    (alike : AlikeAll (token leaf :: rest) others) :
    ∃ other behind, others = .token other :: behind ∧ other.kind = leaf.kind ∧
      AlikeAll rest behind := by
  obtain ⟨first, behind, rfl, same, follow⟩ := List.map_eq_cons_iff.mp alike.symm
  cases first with
  | token other => exact ⟨other, behind, rfl, Token.unplaced_inj.mp (token.inj same), follow.symm⟩
  | _ => cases same

theorem onlyToken_alike (alike : AlikeAll parts others) {kind : Kind}
    (read : onlyToken parts = .ok kind) : onlyToken others = .ok kind := by
  obtain ⟨only, single, read⟩ := bind_eq_ok_iff.mp read
  have kept := alike.inline
  rw [one_eq_ok single] at kept
  cases only with
  | token leaf =>
      obtain ⟨other, behind, stripped, same, rest⟩ := kept.token
      cases List.map_eq_nil_iff.mp rest.symm
      cases read
      have only : one others = .ok (.token other) := by
        rw [one, stripped]
      rw [onlyToken, only]
      exact congrArg Except.ok same
  | _ => cases read

/-- A production made from the kind of its only token. -/
theorem ofToken_alike (alike : AlikeAll parts others) {make : Kind → Reading Part}
    (made : (onlyToken parts >>= make) = .ok part) : (onlyToken others >>= make) = .ok part := by
  obtain ⟨kind, read, made⟩ := bind_eq_ok_iff.mp made
  exact bind_eq_ok_iff.mpr ⟨kind, onlyToken_alike alike read, made⟩

theorem ofUnary_alike (alike : AlikeAll parts others) (made : ofUnary parts = .ok part) :
    ofUnary others = .ok part := by
  obtain ⟨⟨sign, operand⟩, pair, both⟩ := bind_eq_ok_iff.mp made
  obtain ⟨op, signed, last⟩ := bind_eq_ok_iff.mp both
  obtain ⟨_, taken, _⟩ := bind_eq_ok_iff.mp last
  have kept := alike.inline
  rw [two_eq_ok pair] at kept
  cases sign with
  | token leaf =>
      obtain ⟨other, behind, stripped, same, rest⟩ := kept.token
      rw [rest.eq (tokenless_one (not_token_of_toExpression taken))] at stripped
      have both : two others = .ok (.token other, operand) := by
        rw [two, stripped]
      have signs : toUnaryOperator (.token other) = .ok op := by
        unfold toUnaryOperator at signed ⊢
        dsimp only at signed ⊢
        rw [same]
        split at signed
        · exact signed
        · cases signed
      exact bind_eq_ok_iff.mpr ⟨(.token other, operand), both,
        bind_eq_ok_iff.mpr ⟨op, signs, last⟩⟩
  | _ => cases signed

/-- Where tokens are does not matter to a production. -/
theorem ofRule_alike {rule : Rule} (alike : AlikeAll parts others)
    (made : ofRule rule parts = .ok part) : ofRule rule others = .ok part := by
  have same : Tokenless (strip parts) → ofRule rule others = .ok part := by
    intro tokenless
    rw [← ofRule_strip, alike.inline.eq tokenless, ofRule_strip, made]
  have expressions : ∀ {values}, (strip parts).mapM toExpression = .ok values →
      Tokenless (strip parts) :=
    tokenless_of_mapM fun _ => ⟨_, rfl⟩
  cases rule with
  | newLines => exact made
  | identifier | int | float | string | binaryOperator => exact ofToken_alike alike made
  | unary => exact ofUnary_alike alike made
  | start => exact same (tokenless_start made)
  | body =>
      obtain ⟨_, taken, _⟩ := bind_eq_ok_iff.mp made
      exact same (tokenless_of_mapM (fun _ => ⟨_, rfl⟩) taken)
  | attr => exact same (tokenless_attr made)
  | block => exact same (tokenless_block made)
  | term => exact same (tokenless_term made)
  | tuple | arguments =>
      obtain ⟨_, taken, _⟩ := bind_eq_ok_iff.mp made
      exact same (expressions taken)
  | object =>
      obtain ⟨_, taken, _⟩ := bind_eq_ok_iff.mp made
      exact same (tokenless_of_mapM (fun _ => ⟨_, rfl⟩) taken)
  | objectElement => exact same (tokenless_objectElement made)
  | call => exact same (tokenless_call made)
  | getAttr => exact same (tokenless_getAttr made)
  | index => exact same (tokenless_index made)
  | attrSplat | fullSplat => exact same (tokenless_splat made)
  | getAttrTerm | indexTerm | attrSplatTerm | fullSplatTerm => exact same (tokenless_access made)
  | binary => exact same (tokenless_binary made)
  | binaryTerm => exact same (tokenless_binaryTerm made)

end Productions

theorem ofTrees_cons_ok {tree : Tree} {trees : List Tree} {all : List Part}
    (read : ofTrees (tree :: trees) = .ok all) :
    ∃ part parts, all = part :: parts ∧ Means tree part ∧ ofTrees trees = .ok parts := by
  unfold ofTrees at *
  rw [Tree.foldAllM] at read
  unfold Means ofTree
  cases first : Tree.foldM (m := Except Malformed) (fun leaf => .ok (.token leaf)) ofNode tree with
  | error malformed =>
      rw [first] at read
      cases read
  | ok part =>
      rw [first] at read
      cases rest : Tree.foldAllM (m := Except Malformed) (fun leaf => .ok (.token leaf)) ofNode
          trees with
      | error malformed =>
          rw [rest] at read
          cases read
      | ok parts =>
          rw [rest] at read
          cases read
          exact ⟨part, parts, rfl, rfl, rfl⟩

theorem means_node_ok {rule : Rule} {line : Nat} {children : List Tree} {part : Part}
    (means : Means (.node rule line children) part) :
    ∃ parts, MeanAll children parts ∧ ofRule rule parts = .ok part := by
  unfold Means ofTree at means
  rw [Tree.foldM] at means
  cases read : ofTrees children with
  | error malformed =>
      change (ofTrees children >>= ofNode rule line) = _ at means
      rw [read] at means
      cases means
  | ok parts =>
      change (ofTrees children >>= ofNode rule line) = _ at means
      rw [read] at means
      change ofNode rule line parts = _ at means
      refine ⟨_, ⟨parts, read, rfl⟩, ?_⟩
      rw [ofRule_strip]
      unfold ofNode at means
      split at means
      next made =>
        cases means
        exact made
      next => cases means

mutual

/-- Trees that differ in places only stand for parts that do. -/
theorem means_alike : ∀ (tree other : Tree) (part : Part), Tree.Alike tree other →
    Means tree part → ∃ result, Means other result ∧ part.unplaced = result.unplaced
  | .leaf leaf, other, part, alike, means => by
    cases other with
    | node => simp [Tree.Alike] at alike
    | leaf next =>
        cases means
        exact ⟨.token next, rfl, congrArg token (Tree.leaf.inj alike)⟩
  | .node rule line children, other, part, alike, means => by
    cases other with
    | leaf => simp [Tree.Alike] at alike
    | node next below rest =>
        simp only [Tree.Alike, Tree.unplaced_node, Tree.node.injEq, true_and] at alike
        obtain ⟨rfl, alike⟩ := alike
        obtain ⟨_, ⟨parts, read, rfl⟩, made⟩ := means_node_ok means
        obtain ⟨results, others, same⟩ := meanAll_alike children rest parts alike read
        exact ⟨part, means_node ⟨results, others, rfl⟩ (ofRule_alike same.inline made), rfl⟩

theorem meanAll_alike : ∀ (trees others : List Tree) (parts : List Part),
    Tree.AlikeAll trees others → ofTrees trees = .ok parts →
    ∃ results, ofTrees others = .ok results ∧ AlikeAll parts results
  | [], others, parts, alike, read => by
    cases List.map_eq_nil_iff.mp alike.symm
    exact ⟨parts, read, rfl⟩
  | tree :: trees, others, parts, alike, read => by
    obtain ⟨other, rest, rfl, same, follow⟩ := List.map_eq_cons_iff.mp alike.symm
    obtain ⟨part, parts, rfl, means, read⟩ := ofTrees_cons_ok read
    obtain ⟨result, first, likeFirst⟩ := means_alike tree other part same.symm means
    obtain ⟨results, others, likeRest⟩ := meanAll_alike trees rest parts follow.symm read
    exact ⟨result :: results, ofTrees_cons first others, congrArg₂ List.cons likeFirst likeRest⟩

end

end Part

end ConfigLang
