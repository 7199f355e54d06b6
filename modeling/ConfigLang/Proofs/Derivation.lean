import ConfigLang.Proofs.Ascending
import ConfigLang.Proofs.Leaves
import ConfigLang.Proofs.Limits
import ConfigLang.Proofs.Respacing
/-!
Which tokens each node of a tree was read from. A derivation gives every production the tokens of
its children and, between them, the punctuation that the production takes itself and of which the
tree keeps no leaf.
-/

set_option autoImplicit false

namespace ConfigLang

/-- What a production is read from, left to right: a child, or a token of its own of a kind. -/
abbrev Slots : Type := List (Option Kind)

/-- There are only children, and between them tokens of these kinds. -/
def Slots.Only (kinds : List Kind) (slots : Slots) : Prop :=
  ∀ slot ∈ slots, ∀ kind ∈ slot, kind ∈ kinds

theorem Slots.Only.child {kinds : List Kind} {slots : Slots} (only : slots.Only kinds) :
    Slots.Only kinds (none :: slots) :=
  List.forall_mem_cons.mpr ⟨nofun, only⟩

namespace Rule

/-- The productions that take no token besides those of their children. -/
def isBare : Rule → Bool
  | start | body | newLines | identifier | term | int | float | string => true
  | getAttrTerm | indexTerm | attrSplatTerm | fullSplatTerm => true
  | unary | binary | binaryTerm | binaryOperator => true
  | _ => false

/-- What a production takes. -/
inductive Takes : Rule → Slots → Prop
  | bare {rule : Rule} {slots : Slots} (bare : rule.isBare = true) (inner : slots.Only []) :
      Takes rule slots
  | attr : Takes .attr [none, some .assign, none]
  | block {heads inner : Slots} (headed : heads.Only []) (statements : inner.Only []) :
      Takes .block (heads ++ some .leftBrace :: (inner ++ [some .rightBrace]))
  | group {inner : Slots} (value : inner.Only []) :
      Takes .term (some .leftParen :: (inner ++ [some .rightParen]))
  | tuple {inner : Slots} (items : inner.Only [.comma]) :
      Takes .tuple (some .leftBracket :: (inner ++ [some .rightBracket]))
  | object {inner : Slots} (elements : inner.Only [.comma]) :
      Takes .object (some .leftBrace :: (inner ++ [some .rightBrace]))
  | objectElement {sign : Kind} (assigns : sign = .assign ∨ sign = .colon) :
      Takes .objectElement [none, some sign, none]
  | call {inner : Slots} (values : inner.Only []) :
      Takes .call (none :: some .leftParen :: (inner ++ [some .rightParen]))
  | arguments {inner : Slots} (values : inner.Only [.comma]) : Takes .arguments inner
  | getAttr : Takes .getAttr [some .dot, none]
  | number : Takes .index [some .dot, none]
  | index : Takes .index [some .leftBracket, none, some .rightBracket]
  | attrSplat : Takes .attrSplat [some .dot, some .star]
  | fullSplat : Takes .fullSplat [some .leftBracket, some .star, some .rightBracket]

end Rule

/-- Trees read from tokens one behind the other, with tokens of a production of which they are the
children between them. Each production is on the line of its first token. -/
inductive Covers : Slots → List Token → List Tree → Prop
  | nil : Covers [] [] []
  | own {token : Token} {slots : Slots} {tokens : List Token} {trees : List Tree}
      (follow : Covers slots tokens trees) :
      Covers (some token.kind :: slots) (token :: tokens) trees
  | leaf {token : Token} {slots : Slots} {tokens : List Token} {trees : List Tree}
      (follow : Covers slots tokens trees) :
      Covers (none :: slots) (token :: tokens) (.leaf token :: trees)
  | node {rule : Rule} {first : Token} {inner slots : Slots} {used tokens : List Token}
      {children trees : List Tree} (takes : rule.Takes inner)
      (below : Covers inner (first :: used) children) (follow : Covers slots tokens trees) :
      Covers (none :: slots) (first :: used ++ tokens)
        (.node rule first.place.line children :: trees)

/-- The tree is read from these tokens. -/
def Derives (used : List Token) (tree : Tree) : Prop :=
  Covers [none] used [tree]

namespace Covers

variable {slots others : Slots} {tokens more : List Token} {tree : Tree} {trees next : List Tree}

theorem append (first : Covers slots tokens trees) (second : Covers others more next) :
    Covers (slots ++ others) (tokens ++ more) (trees ++ next) := by
  induction first with
  | nil => exact second
  | own _ ih => exact .own ih
  | leaf _ ih => exact .leaf ih
  | node takes below _ _ ih =>
      rw [List.append_assoc]
      exact .node takes below ih

/-- A token of the production itself. -/
theorem mark {token : Token} {kind : Kind} (is : token.kind = kind)
    (follow : Covers slots tokens trees) : Covers (some kind :: slots) (token :: tokens) trees := by
  subst is
  exact .own follow

theorem single {rule : Rule} {first : Token} (takes : rule.Takes slots)
    (below : Covers slots (first :: tokens) trees) :
    Derives (first :: tokens) (.node rule first.place.line trees) := by
  have alone := Covers.node takes below .nil
  rwa [List.append_nil] at alone

/-- Another child in front. -/
theorem child (first : Derives tokens tree) (follow : Covers slots more trees) :
    Covers (none :: slots) (tokens ++ more) (tree :: trees) :=
  append first follow

/-- Every node is on the line of one of the tokens. -/
theorem line_mem (covers : Covers slots tokens trees) :
    ∀ node ∈ Tree.subtreesAll trees, ∃ token ∈ tokens, node.line = token.place.line := by
  induction covers with
  | nil => exact nofun
  | own _ ih =>
      intro node member
      obtain ⟨token, among, line⟩ := ih node member
      exact ⟨token, List.mem_cons_of_mem _ among, line⟩
  | leaf _ ih =>
      intro node member
      rcases List.mem_cons.mp member with rfl | member
      · exact ⟨_, List.mem_cons_self, rfl⟩
      · obtain ⟨token, among, line⟩ := ih node member
        exact ⟨token, List.mem_cons_of_mem _ among, line⟩
  | node _ _ _ inner ih =>
      intro node member
      rcases List.mem_append.mp member with below | member
      · rcases List.mem_cons.mp below with rfl | below
        · exact ⟨_, List.mem_cons_self, rfl⟩
        · obtain ⟨token, among, line⟩ := inner node below
          exact ⟨token, List.mem_append_left _ among, line⟩
      · obtain ⟨token, among, line⟩ := ih node member
        exact ⟨token, List.mem_append_right _ among, line⟩

/-- Where the lines of the tokens ascend, so do those of the nodes: each is on the line of a token of
its own, and a production is on the line of its first. -/
theorem ascend (covers : Covers slots tokens trees)
    (ascending : tokens.Pairwise fun token other => token.place.line ≤ other.place.line) :
    (Tree.subtreesAll trees).Pairwise fun node other => node.line ≤ other.line := by
  induction covers with
  | nil => exact .nil
  | own _ ih => exact ih ascending.of_cons
  | @leaf token _ _ _ follow ih =>
      refine .cons (fun node member => ?_) (ih ascending.of_cons)
      obtain ⟨other, among, line⟩ := follow.line_mem node member
      rw [line]
      exact List.rel_of_pairwise_cons ascending among
  | @node rule first _ _ _ _ children _ takes below follow inner ih =>
      obtain ⟨own, behind, across⟩ := List.pairwise_append.mp ascending
      have headed (node : Tree) (member : node ∈ Tree.subtreesAll children) :
          first.place.line ≤ node.line := by
        obtain ⟨other, among, line⟩ := below.line_mem node member
        rw [line]
        rcases List.mem_cons.mp among with rfl | among
        · exact Nat.le_refl _
        · exact List.rel_of_pairwise_cons own among
      refine List.pairwise_append.mpr ⟨.cons headed (inner own), ih behind, ?_⟩
      intro node member later among
      obtain ⟨token, within, line⟩ := (Covers.single takes below).line_mem node
        (List.mem_append_left _ member)
      obtain ⟨other, outside, same⟩ := follow.line_mem later among
      rw [line, same]
      exact across token within other outside

/-- Every node that is not a token is read from tokens that stand together. -/
theorem exists_derives (covers : Covers slots tokens trees) {rule : Rule} {line : Nat}
    {children : List Tree} (member : .node rule line children ∈ Tree.subtreesAll trees) :
    ∃ before first used after, tokens = before ++ (first :: used ++ after) ∧
      Derives (first :: used) (.node rule line children) ∧ line = first.place.line := by
  induction covers with
  | nil => cases member
  | own _ ih =>
      obtain ⟨before, first, used, after, rfl, derives⟩ := ih member
      exact ⟨_ :: before, first, used, after, rfl, derives⟩
  | leaf _ ih =>
      rcases List.mem_cons.mp member with same | member
      · cases same
      · obtain ⟨before, first, used, after, rfl, derives⟩ := ih member
        exact ⟨_ :: before, first, used, after, rfl, derives⟩
  | @node _ head _ _ own outer _ _ takes below _ inner ih =>
      rcases List.mem_append.mp member with within | member
      · rcases List.mem_cons.mp within with same | within
        · cases same
          exact ⟨[], head, own, _, rfl, .single takes below, rfl⟩
        · obtain ⟨before, first, used, after, whole, derives⟩ := inner within
          refine ⟨before, first, used, after ++ outer, ?_, derives⟩
          rw [whole]
          simp only [List.append_assoc, List.cons_append]
      · obtain ⟨before, first, used, after, rfl, derives⟩ := ih member
        exact ⟨_ ++ before, first, used, after, by rw [List.append_assoc], derives⟩

end Covers

/-! ### Phrases -/

/-- Trees read from tokens, with no tokens between them but of these kinds. -/
def Within (kinds : List Kind) (used : List Token) (trees : List Tree) : Prop :=
  ∃ slots : Slots, slots.Only kinds ∧ Covers slots used trees

namespace Within

variable {kinds : List Kind} {used more : List Token} {tree : Tree} {trees others : List Tree}

theorem nil : Within kinds [] [] :=
  ⟨[], nofun, .nil⟩

theorem append (first : Within kinds used trees) (second : Within kinds more others) :
    Within kinds (used ++ more) (trees ++ others) := by
  obtain ⟨slots, only, covers⟩ := first
  obtain ⟨next, after, follow⟩ := second
  exact ⟨slots ++ next, List.forall_mem_append.mpr ⟨only, after⟩, covers.append follow⟩

theorem child (derives : Derives used tree) (follow : Within kinds more trees) :
    Within kinds (used ++ more) (tree :: trees) := by
  obtain ⟨slots, only, covers⟩ := follow
  exact ⟨none :: slots, only.child, covers.child derives⟩

theorem single (derives : Derives used tree) : Within kinds used [tree] := by
  rw [← List.append_nil used]
  exact child derives nil

theorem leaf (token : Token) (follow : Within kinds more trees) :
    Within kinds (token :: more) (.leaf token :: trees) := by
  obtain ⟨slots, only, covers⟩ := follow
  exact ⟨none :: slots, only.child, .leaf covers⟩

theorem mark {token : Token} (among : token.kind ∈ kinds) (follow : Within kinds more trees) :
    Within kinds (token :: more) trees := by
  obtain ⟨slots, only, covers⟩ := follow
  refine ⟨some token.kind :: slots, List.forall_mem_cons.mpr ⟨?_, only⟩, .own covers⟩
  rintro kind ⟨⟩
  exact among

end Within

/-- A production that takes no token itself. -/
theorem Derives.bare {rule : Rule} {used : List Token} {children : List Tree}
    (bare : rule.isBare = true) (nonempty : used ≠ []) (inner : Within [] used children) :
    Derives used (.node rule (Grammar.line used) children) := by
  obtain ⟨slots, only, covers⟩ := inner
  cases used with
  | nil => exact absurd rfl nonempty
  | cons first used => exact covers.single (.bare bare only)

theorem Derives.leaf (rule : Rule) (token : Token) (bare : rule.isBare = true) :
    Derives [token] (Grammar.leaf rule token) :=
  .bare bare (List.cons_ne_nil token []) (.leaf token .nil)

theorem Derives.ne_nil {used : List Token} {tree : Tree} (derives : Derives used tree) :
    used ≠ [] := by
  cases derives with
  | leaf | node => exact List.cons_ne_nil _ _

theorem Derives.line_append {used : List Token} {tree : Tree} (derives : Derives used tree)
    (more : List Token) : Grammar.line (used ++ more) = Grammar.line used := by
  cases used with
  | nil => exact absurd rfl derives.ne_nil
  | cons => rfl

/-- A production that begins with its first child and takes no token itself. -/
theorem Derives.begins {used more : List Token} {tree : Tree} {others : List Tree}
    (first : Derives used tree) (rule : Rule) (bare : rule.isBare = true)
    (follow : Within [] more others) :
    Derives (used ++ more) (.node rule (Grammar.line (used ++ more)) (tree :: others)) :=
  .bare bare (List.append_ne_nil_of_left_ne_nil first.ne_nil more) (.child first follow)

theorem Within.lines (kinds : List Kind) (lines : List Token) :
    Within kinds lines (Grammar.newLines lines) := by
  have leaves : ∀ tokens : List Token, Within [] tokens (tokens.map .leaf) := by
    intro tokens
    induction tokens with
    | nil => exact .nil
    | cons token tokens ih => exact .leaf token ih
  cases lines with
  | nil => exact .nil
  | cons first rest =>
      exact .single (.bare rfl (List.cons_ne_nil first rest) (leaves (first :: rest)))

/-- The phrases are what their trees are read from. -/
def Derived (Phrase : Grammar.Phrase) : Prop :=
  ∀ ⦃used tree⦄, Phrase used tree → Derives used tree

section Phrases

variable {Value Item Nested : Grammar.Phrase} {used : List Token} {tree : Tree} {trees : List Tree}

theorem items_within (derived : Derived Value) (items : Grammar.Items Value used trees) :
    Within [.comma] used trees := by
  have comma {token : Token} (is : token.kind = .comma) : token.kind ∈ [Kind.comma] := by simp [is]
  induction items with
  | last item => exact .child (derived item) (.lines _ _)
  | comma item _ separates =>
      exact .child (derived item) (.append (.lines _ _) (.mark (comma separates) (.lines _ _)))
  | @more _ _ lead _ _ _ _ item _ separates _ _ ih =>
      have behind := Within.mark (comma separates) ((Within.lines [.comma] lead).append ih)
      exact .child (derived item) (.append (.lines _ _) behind)

theorem optional_within (derived : Derived Value)
    (items : Grammar.Optional (Grammar.Items Value) used trees) : Within [.comma] used trees := by
  cases items with
  | none => exact .nil
  | some items => exact items_within derived items

theorem key_derives {token : Token} (key : Grammar.Key token tree) : Derives [token] tree := by
  cases key with
  | name | string => exact .leaf _ token rfl

theorem element_derives (derived : Derived Value) : Derived (Grammar.Element Value) := by
  rintro _ _ ⟨named, assigns, item⟩
  exact .single (.objectElement assigns) (.child (key_derives named) (.own (derived item)))

theorem separator_within (separator : Grammar.Separator used trees) :
    Within [.comma] used trees := by
  cases separator with
  | comma separates => exact .mark (by simp [separates]) (.lines _ _)
  | lines => exact .lines _ _

theorem elements_within (derived : Derived Value) (elements : Grammar.Elements Value used trees) :
    Within [.comma] used trees := by
  induction elements with
  | none => exact .nil
  | last item => exact .single (element_derives derived item)
  | more item separates _ ih =>
      exact .child (element_derives derived item) (.append (separator_within separates) ih)

theorem arguments_within (derived : Derived Value) (opens : Grammar.Opens Value)
    (arguments : Grammar.Arguments Value used trees) : Within [] used trees := by
  cases arguments with
  | none => exact .nil
  | some items =>
      obtain ⟨slots, only, covers⟩ := items_within derived items
      obtain ⟨first, rest, rfl, _⟩ := items.opens opens
      exact .single (covers.single (.arguments only))

/-- What stands between two tokens of the same production. -/
theorem Covers.enclosed {kinds : List Kind} {opening closing : Token} {begins ends : Kind}
    {inner : List Token} (opens : opening.kind = begins) (lead : List Token)
    (items : Within kinds inner trees) (closes : closing.kind = ends) :
    ∃ slots : Slots, slots.Only kinds ∧
      Covers (some begins :: (slots ++ [some ends])) (opening :: (lead ++ (inner ++ [closing])))
        (Grammar.newLines lead ++ trees) := by
  obtain ⟨slots, only, covers⟩ := (Within.lines kinds lead).append items
  refine ⟨slots, only, .mark opens ?_⟩
  have whole := covers.append (.mark closes .nil)
  rwa [List.append_nil, List.append_assoc] at whole

theorem primary_derives (derived : Derived Value) (opens : Grammar.Opens Value)
    (primary : Grammar.Primary Value used trees) :
    Derives used (.node .term (Grammar.line used) trees) := by
  cases primary with
  | int | float | string | name =>
      exact .bare rfl (List.cons_ne_nil _ _) (.single (.leaf _ _ rfl))
  | @group _ _ lead value trail _ begins _ item _ closes =>
      have inside := Within.child (derived item) (Within.lines [] trail)
      obtain ⟨slots, only, covers⟩ := Covers.enclosed begins lead inside closes
      rw [List.append_assoc value] at covers
      exact covers.single (.group only)
  | @call function _ _ _ _ _ _ _ begins _ inner closes =>
      obtain ⟨slots, only, covers⟩ :=
        Covers.enclosed begins _ (arguments_within derived opens inner) closes
      have whole := Covers.child (Derives.leaf .identifier function rfl) covers
      exact .bare rfl (List.cons_ne_nil _ _) (.single (whole.single (.call only)))
  | tuple begins _ inner closes =>
      obtain ⟨slots, only, covers⟩ :=
        Covers.enclosed begins _ (optional_within derived inner) closes
      exact .bare rfl (List.cons_ne_nil _ _) (.single (covers.single (.tuple only)))
  | object begins _ inner closes =>
      obtain ⟨slots, only, covers⟩ :=
        Covers.enclosed begins _ (elements_within derived inner) closes
      exact .bare rfl (List.cons_ne_nil _ _) (.single (covers.single (.object only)))

theorem step_derives {step : Tree.Projection} (taken : Grammar.Step used step) :
    Derives used step.step := by
  cases taken with
  | attr steps => exact .single .getAttr (.mark steps (.child (.leaf _ _ rfl) .nil))
  | number steps => exact .single .number (.mark steps (.child (.leaf _ _ rfl) .nil))
  | attrSplat steps is => exact .single .attrSplat (.mark steps (.mark is .nil))
  | int opens _ closes | string opens _ closes =>
      exact .single .index (.mark opens (.child (.leaf _ _ rfl) (.mark closes .nil)))
  | fullSplat opens is closes =>
      exact .single .fullSplat (.mark opens (.mark is (.mark closes .nil)))

/-- A step puts its term in front of itself, and what comes out begins where the term does. -/
theorem project_derives {step : Tree.Projection} {start : List Token} (first : Derives start tree)
    (taken : Grammar.Step used step) :
    Derives (start ++ used) (Tree.project (Grammar.line start) tree step) := by
  have projects : step.term.isBare = true := by
    cases taken with
    | _ => rfl
  have both := first.begins step.term projects (.single (step_derives taken))
  rw [Tree.project, ← first.line_append used]
  exact .bare rfl both.ne_nil (.single both)

theorem steps_derives {start : List Token} {line : Nat} {term last : Tree}
    (steps : Grammar.Steps line used term last) (first : Derives start term)
    (begins : line = Grammar.line start) : Derives (start ++ used) last := by
  induction steps generalizing start with
  | none =>
      rw [List.append_nil]
      exact first
  | more taken _ ih =>
      rw [← List.append_assoc]
      refine ih ?_ ?_
      · rw [begins]
        exact project_derives first taken
      · rw [begins, first.line_append]

theorem term_derives (derived : Derived Value) (opens : Grammar.Opens Value) :
    Derived (Grammar.Term Value) := by
  rintro _ _ ⟨first, follow⟩
  exact steps_derives follow (primary_derives derived opens first) rfl

theorem operand_derives (derived : Derived Value) (opens : Grammar.Opens Value) :
    Derived (Grammar.Operand Value) := by
  intro used tree operand
  cases operand with
  | plain term => exact term_derives derived opens term
  | signed _ term =>
      exact .bare rfl (List.cons_ne_nil _ _) (.leaf _ (.single (term_derives derived opens term)))

theorem operation_derives (derived : Derived Value) (opens : Grammar.Opens Value) :
    Derived (Grammar.Operation Value) := by
  intro used tree operation
  cases operation with
  | single operand => exact operand_derives derived opens operand
  | @binary _ lines _ sign _ _ operand _ _ rest =>
      have behind := (Within.lines [] lines).append (.single (derived rest))
      have second := (Derives.leaf .binaryOperator sign rfl).begins .binaryTerm rfl behind
      have first := operand_derives derived opens operand
      rw [← first.line_append]
      exact first.begins .binary rfl (.single second)

theorem expr_derives (depth : Nat) : Derived (Grammar.Expr depth) := by
  induction depth with
  | zero => exact nofun
  | succ depth ih => exact operation_derives ih (Grammar.Expr.opens depth)

theorem stmt_derives (derived : Derived Value) (nested : Derived Nested) :
    Derived (Grammar.Stmt Value Nested) := by
  intro used tree stmt
  cases stmt with
  | attr _ assigns item =>
      have value := Covers.child (derived item) .nil
      rw [List.append_nil] at value
      exact Covers.single .attr (.child (.leaf _ _ rfl) (.mark assigns value))
  | block inner => exact nested inner

theorem follow_within (derived : Derived Item) (follow : Grammar.Follow Item used trees) :
    Within [] used trees := by
  induction follow with
  | none => exact .lines _ _
  | more _ _ item _ ih => exact .append (.lines _ _) (.child (derived item) ih)

theorem body_within (derived : Derived Item) (body : Grammar.Body Item used trees) :
    Within [] used trees := by
  cases body with
  | blank => exact .lines _ _
  | items _ item follow =>
      exact .append (.lines _ _) (.child (derived item) (follow_within derived follow))

/-- The statements are children of a production of their own. -/
theorem Within.statements (inner : Within [] used trees)
    (stated : trees.any Tree.isStatement = true) :
    Derives used (.node .body (Grammar.line used) trees) := by
  refine .bare rfl ?_ inner
  rintro rfl
  obtain ⟨slots, only, covers⟩ := inner
  cases covers with
  | nil => cases stated

theorem Within.body (inner : Within [] used trees) :
    Within [] used (Tree.body (Grammar.line used) trees) := by
  unfold Tree.body
  split
  next stated => exact .single (inner.statements stated)
  next => exact inner

theorem labels_within (labels : Grammar.Labels used trees) : Within [] used trees := by
  induction labels with
  | none => exact .nil
  | more named _ ih => exact .child (key_derives named) ih

theorem labelled_derives (derived : Derived Item) : Derived (Grammar.Labelled Item) := by
  intro used tree labelled
  cases labelled with
  | @mk title _ _ _ _ _ _ _ _ labelled opens body closes =>
      obtain ⟨heads, headed, front⟩ := labels_within labelled
      obtain ⟨inner, only, covers⟩ := (body_within derived body).body
      have inside := covers.append (.mark closes .nil)
      rw [List.append_nil] at inside
      have whole := Covers.child (Derives.leaf .identifier title rfl)
        (front.append (.mark opens inside))
      exact whole.single (.block headed.child only)

theorem block_derives (depth : Nat) : Derived (Grammar.Block depth) := by
  induction depth with
  | zero => exact nofun
  | succ depth ih => exact labelled_derives (stmt_derives (expr_derives depth) ih)

theorem document_within {depth : Nat} (body : Grammar.Document depth used trees) :
    Within [] used trees :=
  body_within (stmt_derives (expr_derives depth) (block_derives depth)) body

end Phrases

/-! ### Documents -/

namespace Tree

/-- A document that is accepted is read from its tokens, unless it has no statement. -/
theorem ofTokens_derives {tokens : List Token} {tree : Tree} (read : ofTokens tokens = .ok tree) :
    (∃ line, tree = .node .start line []) ∨ Derives (Token.beforeEnd tokens) tree := by
  obtain ⟨trees, body, -, rfl⟩ := ofTokens_eq_ok_iff.mp read
  obtain ⟨rest, whole, -⟩ := splitEnd_beforeEnd tokens
  unfold Grammar.document
  split
  next stated =>
    have inner := (document_within body).statements stated
    rw [whole, line_ahead _ _ inner.ne_nil]
    exact .inr (.bare rfl inner.ne_nil (.single inner))
  next => exact .inl ⟨_, rfl⟩

/-- The lines of the nodes of a text that is accepted ascend from node to node in pre-order. The tree is
read from the tokens of the text, and each node with children is on the line of the first token that
it is read from. -/
theorem ofTokens_headed {text : String} {tokens : List Token} {tree : Tree}
    (scanned : Token.ofText text = .ok tokens) (read : ofTokens tokens = .ok tree) :
    (tree.subtrees.map line).Pairwise (fun first second => first ≤ second) ∧
      ((∃ line, tree = .node .start line []) ∨ Derives (Token.beforeEnd tokens) tree) ∧
      ∀ rule line children, .node rule line children ∈ tree.subtrees → children ≠ [] →
        ∃ before first used after,
          Token.beforeEnd tokens = before ++ (first :: used ++ after) ∧
            Derives (first :: used) (.node rule line children) ∧ line = first.place.line := by
  have derives := ofTokens_derives read
  have single : subtreesAll [tree] = tree.subtrees := List.append_nil _
  obtain ⟨inside, stop, rfl, precedes⟩ := Token.ofText_precedes scanned
  have ascending : (Token.beforeEnd (inside ++ [⟨.eof, stop⟩])).Pairwise
      fun token other => token.place.line ≤ other.place.line :=
    (precedes.sublist (List.takeWhile_sublist _)).imp fun precedes => precedes.1
  refine ⟨?_, derives, ?_⟩
  · rw [List.pairwise_map]
    rcases derives with ⟨line, rfl⟩ | derives
    · exact List.pairwise_singleton _ _
    · rw [← single]
      exact derives.ascend ascending
  · intro rule line children member inhabited
    rcases derives with ⟨line, rfl⟩ | derives
    · cases List.mem_singleton.mp member
      exact absurd rfl inhabited
    · rw [← single] at member
      exact derives.exists_derives member

/-- A step on a line below that of its term, in a block. -/
theorem ofTokens_headed_step :
    let text := "b \x7b\n  c = [\n1].0\n\x7d"
    let tokens : List Token := [⟨.ident "b", 1, 1⟩, ⟨.leftBrace, 1, 3⟩, ⟨.newline, 1, 4⟩,
      ⟨.ident "c", 2, 3⟩, ⟨.assign, 2, 5⟩, ⟨.leftBracket, 2, 7⟩, ⟨.newline, 2, 8⟩, ⟨.int 1, 3, 1⟩,
      ⟨.rightBracket, 3, 2⟩, ⟨.dot, 3, 3⟩, ⟨.int 0, 3, 4⟩, ⟨.newline, 3, 5⟩, ⟨.rightBrace, 4, 1⟩,
      ⟨.eof, 4, 2⟩]
    ∃ tree, Token.ofText text = .ok tokens ∧ ofTokens tokens = .ok tree ∧
      tree.subtrees.map line =
        [1, 1, 1, 1, 1, 1, 1, 1, 2, 2, 2, 2, 2, 2, 2, 2, 2, 3, 3, 3, 3, 3, 3, 3, 3] ∧
      (tree.subtrees.map line).Pairwise (fun first second => first ≤ second) ∧
      ((∃ line, tree = .node .start line []) ∨ Derives (Token.beforeEnd tokens) tree) := by
  intro text tokens
  have scanned : Token.ofText text = .ok tokens := by decide +kernel
  have accepted : (ofTokens tokens).toOption.any (fun tree => tree.subtrees.map line =
      [1, 1, 1, 1, 1, 1, 1, 1, 2, 2, 2, 2, 2, 2, 2, 2, 2, 3, 3, 3, 3, 3, 3, 3, 3]) = true := by
    decide +kernel
  obtain ⟨tree, read, lines⟩ := exists_of_any accepted
  obtain ⟨ascend, derives, -⟩ := ofTokens_headed scanned read
  exact ⟨tree, scanned, read, of_decide_eq_true lines, ascend, derives⟩

end Tree

end ConfigLang
