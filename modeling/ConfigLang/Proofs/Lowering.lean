import ConfigLang.Document.Parse
import ConfigLang.Proofs.Soundness
import ConfigLang.Proofs.Stripping
import Mathlib.Data.List.Forall2
/-!
Every tree of the grammar stands for something, and the tree of a document for a document. So the
grammar and the reading of its trees agree.
-/

set_option autoImplicit false

namespace ConfigLang.Part

/-- The parts that trees stand for, newlines included. -/
def ofTrees (trees : List Tree) : Except Malformed (List Part) :=
  Tree.foldAllM (fun token => .ok (.token token)) ofNode trees

/-- What a tree stands for. -/
def Means (tree : Tree) (part : Part) : Prop :=
  ofTree tree = .ok part

/-- What trees stand for when newlines do not count. -/
def MeanAll (trees : List Tree) (parts : List Part) : Prop :=
  ∃ all, ofTrees trees = .ok all ∧ strip all = parts

theorem MeanAll.nil : MeanAll [] [] :=
  ⟨[], rfl, rfl⟩

theorem ofTrees_cons {tree : Tree} {trees : List Tree} {part : Part} {parts : List Part}
    (first : Means tree part) (rest : ofTrees trees = .ok parts) :
    ofTrees (tree :: trees) = .ok (part :: parts) := by
  unfold ofTrees at *
  unfold Means ofTree at first
  rw [Tree.foldAllM, first, rest]
  rfl

theorem MeanAll.cons {tree : Tree} {trees : List Tree} {part : Part} {parts : List Part}
    (first : Means tree part) (counts : part.isNewline = false) (rest : MeanAll trees parts) :
    MeanAll (tree :: trees) (part :: parts) := by
  obtain ⟨all, read, rfl⟩ := rest
  exact ⟨part :: all, ofTrees_cons first read, strip_cons_of_counts counts all⟩

theorem MeanAll.skip {tree : Tree} {trees : List Tree} {part : Part} {parts : List Part}
    (first : Means tree part) (newline : part.isNewline = true) (rest : MeanAll trees parts) :
    MeanAll (tree :: trees) parts := by
  obtain ⟨all, read, rfl⟩ := rest
  exact ⟨part :: all, ofTrees_cons first read, strip_cons_of_newline newline all⟩

/-- A node stands for what its production makes of the parts of its children. -/
theorem means_node {rule : Rule} {line : Nat} {children : List Tree} {parts : List Part}
    {part : Part} (inner : MeanAll children parts) (made : ofRule rule parts = .ok part) :
    Means (.node rule line children) part := by
  obtain ⟨all, read, rfl⟩ := inner
  unfold Means ofTree
  unfold ofTrees at read
  rw [Tree.foldM, read]
  change ofNode rule line all = _
  rw [ofNode, ← ofRule_strip, made]

theorem MeanAll.newLines {lines : List Token} {trees : List Tree} {parts : List Part}
    (newlines : Grammar.Newlines lines) (rest : MeanAll trees parts) :
    MeanAll (Grammar.newLines lines ++ trees) parts := by
  cases lines with
  | nil => exact rest
  | cons first others =>
      have leaves : ∀ lines : List Token, Grammar.Newlines lines →
          MeanAll (lines.map .leaf) [] := by
        intro lines newlines
        induction lines with
        | nil => exact .nil
        | cons token lines ih =>
            rw [Grammar.Newlines, List.forall_mem_cons] at newlines
            exact .skip rfl (decide_eq_true newlines.1) (ih newlines.2)
      exact .skip (means_node (leaves _ newlines) rfl) rfl rest

theorem MeanAll.newLines_only {lines : List Token} (newlines : Grammar.Newlines lines) :
    MeanAll (Grammar.newLines lines) [] := by
  simpa only [List.append_nil] using MeanAll.newLines newlines .nil

/-- The production of a single token that is no newline. -/
theorem means_leaf {rule : Rule} {token : Token} {part : Part} (inline : token.kind ≠ .newline)
    (made : ofRule rule [.token token] = .ok part) : Means (Grammar.leaf rule token) part :=
  means_node (.cons rfl (decide_eq_false inline) .nil) made

theorem means_identifier {token : Token} {text : String} (is : token.kind = .ident text) :
    Means (Grammar.leaf .identifier token) (.name text) := by
  obtain ⟨kind, place⟩ := token
  cases is
  exact means_leaf nofun rfl

theorem means_string {token : Token} {contents : String} (is : token.kind = .string contents) :
    Means (Grammar.leaf .string token) (.primitive (.string contents)) := by
  obtain ⟨kind, place⟩ := token
  cases is
  exact means_leaf nofun rfl

theorem means_int {token : Token} {value : Int64} (is : token.kind = .int value) :
    Means (Grammar.leaf .int token) (.expression (.literal (.int value))) := by
  obtain ⟨kind, place⟩ := token
  cases is
  exact means_leaf nofun rfl

theorem means_float {token : Token} {value : Binary64} (is : token.kind = .float value) :
    Means (Grammar.leaf .float token) (.expression (.literal (.float value))) := by
  obtain ⟨kind, place⟩ := token
  cases is
  exact means_leaf nofun rfl

/-! ### Collections -/

/-- Parts that were made from values are taken back to those values. -/
theorem mapM_of_inverse {α : Type} (make : α → Part) (take : Part → Reading α)
    (inverse : ∀ value, take (make value) = .ok value) (values : List α) :
    (values.map make).mapM take = .ok values := by
  induction values with
  | nil => rfl
  | cons value values ih =>
      rw [List.map_cons, List.mapM_cons, inverse, ih]
      rfl

theorem means_tuple {line : Nat} {children : List Tree} {values : List Expression}
    (inner : MeanAll children (values.map .expression)) :
    Means (.node .tuple line children) (.expression (.array values)) := by
  refine means_node inner ?_
  rw [ofRule, ofTuple, strip_map expression fun _ => rfl,
    mapM_of_inverse expression toExpression fun _ => rfl]
  rfl

theorem means_arguments {line : Nat} {children : List Tree} {values : List Expression}
    (inner : MeanAll children (values.map .expression)) :
    Means (.node .arguments line children) (.arguments values) := by
  refine means_node inner ?_
  rw [ofRule, ofArguments, strip_map expression fun _ => rfl,
    mapM_of_inverse expression toExpression fun _ => rfl]
  rfl

theorem means_object {line : Nat} {children : List Tree} {entries : List (String × Expression)}
    (inner : MeanAll children (entries.map fun entry => .element entry.1 entry.2)) :
    Means (.node .object line children) (.expression (.object (Fields.ofList entries))) := by
  refine means_node inner ?_
  rw [ofRule, ofObject,
    strip_map (fun entry : String × Expression => element entry.1 entry.2) fun _ => rfl,
    mapM_of_inverse (fun entry => element entry.1 entry.2) toElement fun _ => rfl]
  rfl

theorem means_body {line : Nat} {children : List Tree} {statements : List Statement}
    (inner : MeanAll children (statements.map .statement)) :
    Means (.node .body line children) (.body statements) := by
  refine means_node inner ?_
  rw [ofRule, ofBody, strip_map statement fun _ => rfl,
    mapM_of_inverse statement toStatement fun _ => rfl]
  rfl

/-! ### Expressions -/

section Phrases

variable {Value Nested : Grammar.Phrase}

/-- Every tree of these phrases stands for an expression. -/
def Expressive (Value : Grammar.Phrase) : Prop :=
  ∀ ⦃used tree⦄, Value used tree → ∃ value, Means tree (.expression value)

theorem items_mean (expressive : Expressive Value) {used : List Token} {trees : List Tree}
    (items : Grammar.Items Value used trees) :
    ∃ values : List Expression, MeanAll trees (values.map .expression) := by
  induction items with
  | last item trailing =>
      obtain ⟨value, means⟩ := expressive item
      exact ⟨[value], .cons means rfl (.newLines_only trailing)⟩
  | comma item trailing _ leading =>
      obtain ⟨value, means⟩ := expressive item
      exact ⟨[value], .cons means rfl (.newLines trailing (.newLines_only leading))⟩
  | more item trailing _ leading _ ih =>
      obtain ⟨value, means⟩ := expressive item
      obtain ⟨values, others⟩ := ih
      exact ⟨value :: values, .cons means rfl (.newLines trailing (.newLines leading others))⟩

theorem optional_mean (expressive : Expressive Value) {used : List Token} {trees : List Tree}
    (items : Grammar.Optional (Grammar.Items Value) used trees) :
    ∃ values : List Expression, MeanAll trees (values.map .expression) := by
  cases items with
  | none => exact ⟨[], .nil⟩
  | some items => exact items_mean expressive items

theorem key_means {token : Token} {tree : Tree} (key : Grammar.Key token tree) :
    ∃ part text, Means tree part ∧ part.isNewline = false ∧ toKey part = .ok text := by
  cases key with
  | name is => exact ⟨_, _, means_identifier is, rfl, rfl⟩
  | string is => exact ⟨_, _, means_string is, rfl, rfl⟩

theorem means_element {line : Nat} {keyTree tree : Tree} {part : Part} {key : String}
    {value : Expression} (named : Means keyTree part) (counts : part.isNewline = false)
    (keyed : toKey part = .ok key) (means : Means tree (.expression value)) :
    Means (.node .objectElement line [keyTree, tree]) (.element key value) := by
  refine means_node (.cons named counts (.cons means rfl .nil)) ?_
  have pair : two [part, .expression value] = .ok (part, .expression value) :=
    two_of_counts counts rfl
  simp only [ofRule, ofObjectElement, pair]
  change (toKey part >>= fun key => _) = _
  rw [keyed]
  rfl

theorem elements_mean (expressive : Expressive Value) {used : List Token} {trees : List Tree}
    (elements : Grammar.Elements Value used trees) :
    ∃ entries : List (String × Expression),
      MeanAll trees (entries.map fun entry => .element entry.1 entry.2) := by
  have single : ∀ {used tree}, Grammar.Element Value used tree →
      ∃ key value, Means tree (.element key value) := by
    intro used tree element
    obtain ⟨key, _, item⟩ := element
    obtain ⟨part, text, named, counts, keyed⟩ := key_means key
    obtain ⟨value, means⟩ := expressive item
    exact ⟨text, value, means_element named counts keyed means⟩
  induction elements with
  | none => exact ⟨[], .nil⟩
  | last item =>
      obtain ⟨key, value, means⟩ := single item
      exact ⟨[(key, value)], .cons means rfl .nil⟩
  | more item separates _ ih =>
      obtain ⟨key, value, means⟩ := single item
      obtain ⟨entries, others⟩ := ih
      refine ⟨(key, value) :: entries, .cons means rfl ?_⟩
      cases separates with
      | comma _ newlines => exact .newLines newlines others
      | lines _ newlines => exact .newLines newlines others

/-- A term stands for what its only child stands for, and a name for itself or a literal. -/
theorem means_term {line : Nat} {children : List Tree} {value : Expression}
    (inner : MeanAll children [.expression value]) :
    Means (.node .term line children) (.expression value) :=
  means_node inner rfl

theorem means_term_name {line : Nat} {children : List Tree} {text : String}
    (inner : MeanAll children [.name text]) :
    Means (.node .term line children) (.expression (ofName text)) :=
  means_node inner rfl

theorem means_term_string {line : Nat} {children : List Tree} {contents : String}
    (inner : MeanAll children [.primitive (.string contents)]) :
    Means (.node .term line children) (.expression (.literal (.string contents))) :=
  means_node inner rfl

theorem means_call {line : Nat} {children : List Tree} {function : String}
    {values : List Expression} (inner : MeanAll children [.name function, .arguments values]) :
    Means (.node .call line children) (.expression (.call function values)) :=
  means_node inner rfl

theorem means_call_nil {line : Nat} {children : List Tree} {function : String}
    (inner : MeanAll children [.name function]) :
    Means (.node .call line children) (.expression (.call function [])) :=
  means_node inner rfl

theorem primary_means (expressive : Expressive Value) {line : Nat} {used : List Token}
    {children : List Tree} (primary : Grammar.Primary Value used children) :
    ∃ value, Means (.node .term line children) (.expression value) := by
  cases primary with
  | int is => exact ⟨_, means_term (.cons (means_int is) rfl .nil)⟩
  | float is => exact ⟨_, means_term (.cons (means_float is) rfl .nil)⟩
  | string is => exact ⟨_, means_term_string (.cons (means_string is) rfl .nil)⟩
  | name is => exact ⟨_, means_term_name (.cons (means_identifier is) rfl .nil)⟩
  | group _ leading item trailing =>
      obtain ⟨value, means⟩ := expressive item
      exact ⟨value, means_term (.newLines leading (.cons means rfl (.newLines_only trailing)))⟩
  | call named _ leading inner =>
      have function := means_identifier named
      cases inner with
      | none =>
          exact ⟨_, means_term
            (.cons (means_call_nil (.cons function rfl (.newLines leading .nil))) rfl .nil)⟩
      | some items =>
          obtain ⟨values, inner⟩ := items_mean expressive items
          refine ⟨.call _ values, means_term (.cons (means_call (.cons function rfl ?_)) rfl .nil)⟩
          exact .newLines leading (.cons (means_arguments inner) rfl .nil)
  | tuple _ leading inner =>
      obtain ⟨values, inner⟩ := optional_mean expressive inner
      exact ⟨_, means_term (.cons (means_tuple (.newLines leading inner)) rfl .nil)⟩
  | object _ leading inner =>
      obtain ⟨entries, inner⟩ := elements_mean expressive inner
      exact ⟨_, means_term (.cons (means_object (.newLines leading inner)) rfl .nil)⟩

/-- A step from a term, given what the two stand for. -/
theorem means_project {line : Nat} {term : Tree} {step : Tree.Projection} {on value : Expression}
    {access : Access} (means : Means term (.expression on))
    (taken : Means step.step (.access access))
    (made : ofRule step.term [.expression on, .access access] = .ok (.expression value)) :
    Means (Tree.project line term step) (.expression value) :=
  means_term (.cons (means_node (.cons means rfl (.cons taken rfl .nil)) made) rfl .nil)

theorem means_getAttr {line : Nat} {token : Token} {text : String} (is : token.kind = .ident text) :
    Means (.node .getAttr line [Grammar.leaf .identifier token]) (.access (.attr text)) :=
  means_node (.cons (means_identifier is) rfl .nil) rfl

theorem means_index_int {line : Nat} {token : Token} {value : Int64}
    (is : token.kind = .int value) :
    Means (.node .index line [Grammar.leaf .int token]) (.access (.index (.int value))) :=
  means_node (.cons (means_int is) rfl .nil) rfl

theorem means_index_string {line : Nat} {token : Token} {contents : String}
    (is : token.kind = .string contents) :
    Means (.node .index line [Grammar.leaf .string token]) (.access (.index (.string contents))) :=
  means_node (.cons (means_string is) rfl .nil) rfl

theorem means_attrSplat {line : Nat} : Means (.node .attrSplat line []) (.access .attrSplat) :=
  means_node .nil rfl

theorem means_fullSplat {line : Nat} : Means (.node .fullSplat line []) (.access .fullSplat) :=
  means_node .nil rfl

theorem step_means {line : Nat} {used : List Token} {step : Tree.Projection} {term : Tree}
    {on : Expression} (taken : Grammar.Step used step) (means : Means term (.expression on)) :
    ∃ value, Means (Tree.project line term step) (.expression value) := by
  cases taken with
  | attr _ is => exact ⟨_, means_project means (means_getAttr is) rfl⟩
  | number _ is | int _ is => exact ⟨_, means_project means (means_index_int is) rfl⟩
  | string _ is => exact ⟨_, means_project means (means_index_string is) rfl⟩
  | attrSplat => exact ⟨_, means_project means means_attrSplat rfl⟩
  | fullSplat => exact ⟨_, means_project means means_fullSplat rfl⟩

theorem steps_mean {line : Nat} {used : List Token} {term last : Tree} {on : Expression}
    (steps : Grammar.Steps line used term last) (means : Means term (.expression on)) :
    ∃ value, Means last (.expression value) := by
  induction steps generalizing on with
  | none => exact ⟨on, means⟩
  | more taken _ ih =>
      obtain ⟨value, next⟩ := step_means taken means
      exact ih next

theorem term_expressive (expressive : Expressive Value) : Expressive (Grammar.Term Value) := by
  intro used tree term
  obtain ⟨first, steps⟩ := term
  obtain ⟨on, means⟩ := primary_means expressive first
  exact steps_mean steps means

theorem means_unary {line : Nat} {sign : Token} {tree : Tree} {op : UnaryOperator}
    {value : Expression} (signs : unaryOperator? sign.kind = some op)
    (means : Means tree (.expression value)) :
    Means (.node .unary line [.leaf sign, tree]) (.expression (.unary op value)) := by
  have inline : sign.kind ≠ .newline := by
    intro newline
    rw [newline] at signs
    cases signs
  have counts : isNewline (.token sign) = false := decide_eq_false inline
  have pair : two [.token sign, .expression value] = .ok (.token sign, .expression value) :=
    two_of_counts counts rfl
  refine means_node (.cons rfl counts (.cons means rfl .nil)) ?_
  simp only [ofRule, ofUnary, pair]
  change (toUnaryOperator (.token sign) >>= fun op => _) = _
  rw [toUnaryOperator, signs]
  rfl

theorem operand_expressive (expressive : Expressive Value) :
    Expressive (Grammar.Operand Value) := by
  intro used tree operand
  cases operand with
  | plain term => exact term_expressive expressive term
  | signed signs term =>
      obtain ⟨value, means⟩ := term_expressive expressive term
      rcases signs with minus | bang
      · exact ⟨.unary .neg value, means_unary (by rw [minus]; rfl) means⟩
      · exact ⟨.unary .not value, means_unary (by rw [bang]; rfl) means⟩

theorem binaryOperator?_of_isBinaryOperator {kind : Kind} (joins : kind.isBinaryOperator = true) :
    ∃ op, binaryOperator? kind = some op := by
  cases kind with
  | plus | minus | star | slash | percent | equal | notEqual | less | lessEqual | greater
  | greaterEqual | and | or => exact ⟨_, rfl⟩
  | _ => cases joins

theorem means_binaryOperator {sign : Token} {op : BinaryOperator}
    (joins : binaryOperator? sign.kind = some op) :
    Means (Grammar.leaf .binaryOperator sign) (.operator op) := by
  have inline : sign.kind ≠ .newline := by
    intro newline
    rw [newline] at joins
    cases joins
  refine means_leaf inline ?_
  simp only [ofRule, ofBinaryOperator, onlyToken_of_inline inline]
  change (pure sign.kind >>= fun kind => _) = _
  rw [pure_bind, joins]
  rfl

theorem means_binary {first second : Nat} {sign : Token} {lines : List Token}
    {left right : Tree} {op : BinaryOperator} {leftValue rightValue : Expression}
    (before : Means left (.expression leftValue)) (joins : binaryOperator? sign.kind = some op)
    (newlines : Grammar.Newlines lines) (after : Means right (.expression rightValue)) :
    Means (.node .binary first [left, .node .binaryTerm second
        (Grammar.leaf .binaryOperator sign :: (Grammar.newLines lines ++ [right]))])
      (.expression (.binary op leftValue rightValue)) := by
  have term : MeanAll (Grammar.leaf .binaryOperator sign :: (Grammar.newLines lines ++ [right]))
      [.operator op, .expression rightValue] :=
    .cons (means_binaryOperator joins) rfl (.newLines newlines (.cons after rfl .nil))
  have rest : Means (.node .binaryTerm second _) (.operation op rightValue) := means_node term rfl
  exact means_node (.cons before rfl (.cons rest rfl .nil)) rfl

theorem operation_expressive (expressive : Expressive Value) :
    Expressive (Grammar.Operation Value) := by
  intro used tree operation
  cases operation with
  | single operand => exact operand_expressive expressive operand
  | binary operand joins newlines rest =>
      obtain ⟨left, before⟩ := operand_expressive expressive operand
      obtain ⟨right, after⟩ := expressive rest
      obtain ⟨op, joins⟩ := binaryOperator?_of_isBinaryOperator joins
      exact ⟨_, means_binary before joins newlines after⟩

end Phrases

theorem expr_expressive (depth : Nat) : Expressive (Grammar.Expr depth) := by
  induction depth with
  | zero => exact nofun
  | succ depth ih => exact operation_expressive ih

/-! ### Statements -/

theorem means_attr {line : Nat} {key : Token} {text : String} {tree : Tree} {value : Expression}
    (named : key.kind = .ident text) (means : Means tree (.expression value)) :
    Means (.node .attr line [Grammar.leaf .identifier key, tree])
      (.statement (.assign text value)) :=
  means_node (.cons (means_identifier named) rfl (.cons means rfl .nil)) rfl

/-- The part of a label, and the label. -/
inductive Labels : Part → Expression → Prop
  | name {text : String} : Labels (.name text) (.identifier text)
  | string {contents : String} :
      Labels (.primitive (.string contents)) (.literal (.string contents))

theorem key_labels {token : Token} {tree : Tree} (key : Grammar.Key token tree) :
    ∃ part label, Means tree part ∧ part.isNewline = false ∧ Labels part label := by
  cases key with
  | name is => exact ⟨_, _, means_identifier is, rfl, .name⟩
  | string is => exact ⟨_, _, means_string is, rfl, .string⟩

theorem mapM_toLabel {parts : List Part} {labels : List Expression}
    (labelled : List.Forall₂ Labels parts labels) : parts.mapM toLabel = .ok labels := by
  induction labelled with
  | nil => rfl
  | cons label _ ih =>
      rw [List.mapM_cons, ih]
      cases label with
      | name | string => rfl

theorem exists_label {parts : List Part} {labels : List Expression}
    (labelled : List.Forall₂ Labels parts labels) : ∀ part ∈ parts, ∃ label, Labels part label := by
  induction labelled with
  | nil => exact nofun
  | cons label _ ih => exact List.forall_mem_cons.mpr ⟨⟨_, label⟩, ih⟩

/-- Neither the title of a block nor a label is a newline. -/
theorem strip_labelled {title : String} {parts : List Part} {labels : List Expression}
    (labelled : List.Forall₂ Labels parts labels) :
    strip (.name title :: parts) = .name title :: parts := by
  refine strip_of_counts (List.forall_mem_cons.mpr ⟨rfl, fun part member => ?_⟩)
  obtain ⟨_, label⟩ := exists_label labelled part member
  cases label with
  | name | string => rfl

theorem strip_block {title : String} {parts : List Part} {labels : List Expression}
    (labelled : List.Forall₂ Labels parts labels) (statements : List Statement) :
    strip (.name title :: parts ++ [.body statements]) =
      .name title :: parts ++ [.body statements] := by
  rw [strip_append, strip_labelled labelled]
  rfl

/-- A block that ends with its title or a label has no body of its own. -/
theorem withBody_name {title : String} {parts : List Part} {labels : List Expression}
    (labelled : List.Forall₂ Labels parts labels) :
    withBody (.name title :: parts) = .name title :: parts ++ [.body []] := by
  have ends := List.getLast?_eq_some_getLast (List.cons_ne_nil (.name title) parts)
  have last := List.getLast_mem (List.cons_ne_nil (.name title) parts)
  obtain ⟨_, label⟩ := exists_label (.cons .name labelled) _ last
  unfold withBody
  rw [ends]
  generalize (Part.name title :: parts).getLast _ = part at label
  cases label with
  | name | string => rfl

theorem withBody_body (parts : List Part) (statements : List Statement) :
    withBody (parts ++ [.body statements]) = parts ++ [.body statements] := by
  rw [withBody, List.getLast?_concat]

theorem ofBlock_body {title : String} {parts : List Part} {labels : List Expression}
    {statements : List Statement} (labelled : List.Forall₂ Labels parts labels) :
    ofBlock (.name title :: parts ++ [.body statements]) =
      .ok (.statement (.block title labels statements)) := by
  unfold ofBlock
  rw [strip_block labelled, withBody_body]
  cases parts with
  | nil =>
      cases labelled
      rfl
  | cons part parts =>
      have last : (part :: (parts ++ [.body statements])).getLast? = some (.body statements) := by
        rw [← List.cons_append, List.getLast?_concat]
      have before : (part :: (parts ++ [.body statements])).dropLast = part :: parts := by
        rw [← List.cons_append, List.dropLast_concat]
      simp only [List.cons_append, last, before, mapM_toLabel labelled]
      rfl

theorem ofBlock_name {title : String} {parts : List Part} {labels : List Expression}
    (labelled : List.Forall₂ Labels parts labels) :
    ofBlock (.name title :: parts) = .ok (.statement (.block title labels [])) := by
  have whole : ofBlock (.name title :: parts ++ [.body []]) = _ := ofBlock_body labelled
  have same : withBody (strip (.name title :: parts)) =
      withBody (strip (.name title :: parts ++ [.body []])) := by
    rw [strip_labelled labelled, strip_block labelled, withBody_name labelled, withBody_body]
  unfold ofBlock at whole ⊢
  rwa [same]

section Phrases

variable {Value Nested Item : Grammar.Phrase}

theorem labels_mean {used : List Token} {trees : List Tree} (labels : Grammar.Labels used trees) :
    ∃ parts values, List.Forall₂ Labels parts values ∧
      ∀ {rest others}, MeanAll rest others → MeanAll (trees ++ rest) (parts ++ others) := by
  induction labels with
  | none => exact ⟨[], [], .nil, fun rest => rest⟩
  | more key _ ih =>
      obtain ⟨part, label, means, counts, labelled⟩ := key_labels key
      obtain ⟨parts, values, follow, others⟩ := ih
      exact ⟨part :: parts, label :: values, .cons labelled follow,
        fun rest => .cons means counts (others rest)⟩

/-- Every tree of these phrases stands for a statement. -/
def Stating (Item : Grammar.Phrase) : Prop :=
  ∀ ⦃used tree⦄, Item used tree → ∃ statement, Means tree (.statement statement)

theorem follow_means (stating : Stating Item) {used : List Token} {trees : List Tree}
    (follow : Grammar.Follow Item used trees) :
    ∃ statements : List Statement, MeanAll trees (statements.map .statement) := by
  induction follow with
  | none newlines => exact ⟨[], .newLines_only newlines⟩
  | more _ newlines item _ ih =>
      obtain ⟨statement, means⟩ := stating item
      obtain ⟨statements, others⟩ := ih
      exact ⟨statement :: statements, .newLines newlines (.cons means rfl others)⟩

/-- The statements that the trees of a body stand for. Without a statement there is no body. -/
def Hold (trees : List Tree) (statements : List Statement) : Prop :=
  MeanAll trees (statements.map .statement) ∧
    (trees.any Tree.isStatement = false → statements = [])

theorem body_holds (stated : Grammar.Stated Item) (stating : Stating Item) {used : List Token}
    {trees : List Tree} (body : Grammar.Body Item used trees) :
    ∃ statements, Hold trees statements := by
  cases body with
  | blank newlines => exact ⟨[], .newLines_only newlines, fun _ => rfl⟩
  | items leading item follow =>
      obtain ⟨statement, means⟩ := stating item
      obtain ⟨statements, others⟩ := follow_means stating follow
      refine ⟨statement :: statements, .newLines leading (.cons means rfl others), ?_⟩
      simp [stated item]

theorem means_block {line inside : Nat} {title : Tree} {text : String}
    {labelTrees trees : List Tree} {parts : List Part} {labels : List Expression}
    {statements : List Statement} (titled : Means title (.name text))
    (labelled : List.Forall₂ Labels parts labels)
    (prefixed : ∀ {rest others}, MeanAll rest others →
      MeanAll (labelTrees ++ rest) (parts ++ others))
    (holds : Hold trees statements) :
    Means (.node .block line (title :: (labelTrees ++ Tree.body inside trees)))
      (.statement (.block text labels statements)) := by
  obtain ⟨inner, empty⟩ := holds
  cases some : trees.any Tree.isStatement with
  | false =>
      rw [Tree.body, if_neg (by simp [some])]
      rw [empty some] at inner ⊢
      refine means_node (.cons titled rfl (prefixed inner)) ?_
      rw [List.map_nil, List.append_nil]
      exact ofBlock_name labelled
  | true =>
      rw [Tree.body, if_pos some]
      exact means_node (.cons titled rfl (prefixed (.cons (means_body inner) rfl .nil)))
        (ofBlock_body labelled)

theorem labelled_stating (stated : Grammar.Stated Item) (stating : Stating Item) :
    Stating (Grammar.Labelled Item) := by
  intro used tree labelled
  obtain ⟨named, labels, _, body, _⟩ := labelled
  obtain ⟨parts, values, labelled, prefixed⟩ := labels_mean labels
  obtain ⟨statements, holds⟩ := body_holds stated stating body
  exact ⟨_, means_block (means_identifier named) labelled prefixed holds⟩

theorem stmt_stating (expressive : Expressive Value) (nested : Stating Nested) :
    Stating (Grammar.Stmt Value Nested) := by
  intro used tree stmt
  cases stmt with
  | attr named _ item =>
      obtain ⟨value, means⟩ := expressive item
      exact ⟨_, means_attr named means⟩
  | block inner => exact nested inner

theorem block_stating (depth : Nat) : Stating (Grammar.Block depth) := by
  induction depth with
  | zero => exact nofun
  | succ depth ih =>
      have stated := @Grammar.Stmt.stated (Grammar.Expr depth) _ (Grammar.Block.stated depth)
      exact labelled_stating stated (stmt_stating (expr_expressive depth) ih)

end Phrases

theorem means_document {line : Nat} {trees : List Tree} {statements : List Statement}
    (holds : Hold trees statements) :
    Means (Grammar.document line trees) (.document ⟨statements⟩) := by
  obtain ⟨inner, empty⟩ := holds
  cases some : trees.any Tree.isStatement with
  | false =>
      rw [Grammar.document, if_neg (by simp [some]), empty some]
      exact means_node .nil rfl
  | true =>
      rw [Grammar.document, if_pos some]
      exact means_node (.cons (means_body inner) rfl .nil) rfl

theorem document_means {depth line : Nat} {used : List Token} {trees : List Tree}
    (body : Grammar.Document depth used trees) :
    ∃ document, Means (Grammar.document line trees) (.document document) := by
  have stated := @Grammar.Stmt.stated (Grammar.Expr depth) _ (Grammar.Block.stated depth)
  have stating := stmt_stating (expr_expressive depth) (block_stating depth)
  obtain ⟨statements, holds⟩ := body_holds stated stating body
  exact ⟨⟨statements⟩, means_document holds⟩

theorem ofTokens_means {tokens : List Token} {tree : Tree}
    (read : Tree.ofTokens tokens = .ok tree) :
    ∃ document, ofTree tree = .ok (.document document) := by
  obtain ⟨_, _, _, _, _, _, body, rfl⟩ := Tree.ofTokens_reads read
  exact document_means body

/-- What the grammar accepts stands for a document, whatever the tokens are and wherever they come
from. So no text is refused because its tree is malformed. -/
theorem accepted_stands_for_document :
    (∀ tokens tree, Tree.ofTokens tokens = .ok tree →
      ∃ document, ofTree tree = .ok (.document document)) ∧
    ∀ text malformed, Document.parse text ≠ .error (.malformed malformed) := by
  refine ⟨fun _ _ read => ofTokens_means read, ?_⟩
  intro text malformed refused
  unfold Document.parse at refused
  cases scanned : Token.ofText text with
  | error faults =>
      rw [scanned] at refused
      cases refused
  | ok tokens =>
      rw [scanned] at refused
      cases read : Tree.ofTokens tokens with
      | error faults =>
          change ((Tree.ofTokens tokens).mapError _ >>= fun tree => _) = _ at refused
          rw [read] at refused
          cases refused
      | ok tree =>
          change ((Tree.ofTokens tokens).mapError _ >>= fun tree => _) = _ at refused
          rw [read] at refused
          change (Document.ofTree tree).mapError _ = _ at refused
          obtain ⟨document, means⟩ := ofTokens_means read
          rw [Document.ofTree, means] at refused
          cases refused

/-- Tokens that no text gives, with an end token in the middle and places at random, are still
accepted only with a meaning. -/
theorem accepted_stands_for_document_unordered :
    ∃ tree, Tree.ofTokens
        [⟨.newline, ⟨4, 1⟩⟩, ⟨.ident "a", ⟨9, 9⟩⟩, ⟨.string "b", ⟨2, 7⟩⟩, ⟨.leftBrace, ⟨2, 7⟩⟩,
          ⟨.newline, ⟨1, 1⟩⟩, ⟨.ident "c", ⟨3, 2⟩⟩, ⟨.leftBrace, ⟨8, 3⟩⟩, ⟨.rightBrace, ⟨1, 1⟩⟩,
          ⟨.rightBrace, ⟨1, 1⟩⟩, ⟨.eof, ⟨1, 1⟩⟩, ⟨.and, ⟨1, 1⟩⟩] =
        .ok tree ∧
      ∃ document, ofTree tree = .ok (.document document) := by
  refine Exists.imp (fun tree read => ⟨read, accepted_stands_for_document.1 _ tree read⟩) ?_
  exact ⟨_, rfl⟩

end ConfigLang.Part
