import ConfigLang.Proofs.Composition
import ConfigLang.Proofs.Entries
import ConfigLang.Proofs.Spelling
/-!
What documents can be read. Names, numbers and labels of a document are those that tokens can
hold, the keys of an object are distinct, and keywords are never taken for names of values.
-/

set_option autoImplicit false

namespace ConfigLang

/-! ### Tokens of a text -/

/-- What a token of a text holds: a name is spelled as one, and a number has no sign. -/
def Kind.IsLexical : Kind → Prop
  | .ident name => Source.isName name
  | .int value => 0 ≤ value.toInt ∧ value.toInt ≤ 9223372036854775807
  | _ => True

theorem Spelling.Spells.isLexical {kind : Kind} {chars : List Char} (spells : Spells kind chars) :
    kind.IsLexical := by
  cases spells with
  | mark mark =>
      cases kind with
      | int | ident => cases mark
      | _ => trivial
  | ident named => exact named
  | int number same =>
      refine ⟨?_, Int.le_of_lt_add_one (Int64.toInt_lt _)⟩
      rw [same]
      exact Int.natCast_nonneg _
  | float | string | feed | lines => trivial

/-- All of these tokens can come from a text. -/
def Lexical (tokens : List Token) : Prop :=
  ∀ token ∈ tokens, token.kind.IsLexical

@[simp] theorem lexical_nil : Lexical [] := nofun

@[simp] theorem lexical_cons {first : Token} {rest : List Token} :
    Lexical (first :: rest) ↔ first.kind.IsLexical ∧ Lexical rest :=
  List.forall_mem_cons

@[simp] theorem lexical_append {first second : List Token} :
    Lexical (first ++ second) ↔ Lexical first ∧ Lexical second :=
  List.forall_mem_append

theorem Tiles.lexical {afterDot : Bool} {before rest : List Char} {tokens : List Token}
    {spans : List Span} (tiles : Tiles afterDot before rest tokens spans) : Lexical tokens := by
  induction tiles with
  | stop => exact lexical_cons.mpr ⟨trivial, lexical_nil⟩
  | token _ spells _ _ ih => exact lexical_cons.mpr ⟨spells.isLexical, ih⟩

/-! ### Documents that are read -/

namespace Image

/-- An integer is never below zero, and it fits a signed word. -/
def IsLiteral : Scalar → Prop
  | .int value => 0 ≤ value.toInt ∧ value.toInt ≤ 9223372036854775807
  | _ => True

inductive IsIndex : Scalar → Prop
  | int {value : Int64} (unsigned : 0 ≤ value.toInt ∧ value.toInt ≤ 9223372036854775807) :
      IsIndex (.int value)
  | string {contents : String} : IsIndex (.string contents)

/-- An expression as it is read, at any depth. -/
inductive IsExpression : Expression → Prop
  | literal {value : Scalar} (literal : IsLiteral value) : IsExpression (.literal value)
  | identifier {name : String} (named : Source.isName name)
      (free : name ≠ "true" ∧ name ≠ "false" ∧ name ≠ "null") : IsExpression (.identifier name)
  | array {items : List Expression} (inner : ∀ item ∈ items, IsExpression item) :
      IsExpression (.array items)
  | object {fields : List (String × Expression)} (distinct : (fields.map Prod.fst).Nodup)
      (inner : ∀ field ∈ fields, IsExpression field.2) : IsExpression (.object fields)
  | call {function : String} {arguments : List Expression} (named : Source.isName function)
      (inner : ∀ argument ∈ arguments, IsExpression argument) :
      IsExpression (.call function arguments)
  | getAttr {on : Expression} {name : String} (inner : IsExpression on)
      (named : Source.isName name) : IsExpression (.getAttr on name)
  | getIndex {on : Expression} {index : Scalar} (inner : IsExpression on)
      (literal : IsIndex index) : IsExpression (.getIndex on index)
  | attrSplat {on : Expression} (inner : IsExpression on) : IsExpression (.attrSplat on)
  | indexSplat {on : Expression} (inner : IsExpression on) : IsExpression (.indexSplat on)
  | unary {op : UnaryOperator} {operand : Expression} (inner : IsExpression operand) :
      IsExpression (.unary op operand)
  | binary {op : BinaryOperator} {left right : Expression} (before : IsExpression left)
      (after : IsExpression right) : IsExpression (.binary op left right)

/-- A label is any name, keywords included, or a string. -/
inductive IsLabel : Expression → Prop
  | name {name : String} (named : Source.isName name) : IsLabel (.identifier name)
  | string {contents : String} : IsLabel (.literal (.string contents))

inductive IsStatement : Statement → Prop
  | assign {key : String} {value : Expression} (named : Source.isName key)
      (inner : IsExpression value) : IsStatement (.assign key value)
  | block {name : String} {heads : List Expression} {body : List Statement}
      (named : Source.isName name) (labelled : ∀ label ∈ heads, IsLabel label)
      (inner : ∀ statement ∈ body, IsStatement statement) : IsStatement (.block name heads body)

def IsDocument (document : Document) : Prop :=
  ∀ statement ∈ document.body, IsStatement statement

open ConfigLang.Part

/-- A name where a value is wanted is no keyword if it stands for itself. -/
theorem isExpression_ofName {name : String} (named : Source.isName name) :
    IsExpression (ofName name) := by
  unfold ofName
  split
  · exact .literal trivial
  · split
    · exact .literal trivial
    · split
      · exact .literal trivial
      next untrue unfalse unnull => exact .identifier named ⟨untrue, unfalse, unnull⟩

/-! ### Expressions -/

section Phrases

variable {Value Nested Item : Grammar.Phrase}

/-- The trees of these phrases stand for expressions as they are read, if their tokens can come
from a text. -/
def Yields (Value : Grammar.Phrase) : Prop :=
  ∀ ⦃used tree⦄, Value used tree → Lexical used →
    ∃ value, Means tree (.expression value) ∧ IsExpression value

theorem items_yield (yields : Yields Value) {used : List Token} {trees : List Tree}
    (items : Grammar.Items Value used trees) (lexical : Lexical used) :
    ∃ values : List Expression, MeanAll trees (values.map .expression) ∧
      ∀ value ∈ values, IsExpression value := by
  induction items with
  | last item trailing =>
      simp only [lexical_append] at lexical
      obtain ⟨value, means, is⟩ := yields item lexical.1
      exact ⟨[value], .cons means rfl (.newLines_only trailing), List.forall_mem_singleton.mpr is⟩
  | comma item trailing _ leading =>
      simp only [lexical_append] at lexical
      obtain ⟨value, means, is⟩ := yields item lexical.1
      exact ⟨[value], .cons means rfl (.newLines trailing (.newLines_only leading)),
        List.forall_mem_singleton.mpr is⟩
  | more item trailing _ leading _ ih =>
      simp only [lexical_append, lexical_cons] at lexical
      obtain ⟨value, means, is⟩ := yields item lexical.1
      obtain ⟨values, others, are⟩ := ih lexical.2.2.2.2
      exact ⟨value :: values, .cons means rfl (.newLines trailing (.newLines leading others)),
        List.forall_mem_cons.mpr ⟨is, are⟩⟩

theorem optional_yield (yields : Yields Value) {used : List Token} {trees : List Tree}
    (items : Grammar.Optional (Grammar.Items Value) used trees) (lexical : Lexical used) :
    ∃ values : List Expression, MeanAll trees (values.map .expression) ∧
      ∀ value ∈ values, IsExpression value := by
  cases items with
  | none => exact ⟨[], .nil, nofun⟩
  | some items => exact items_yield yields items lexical

theorem elements_yield (yields : Yields Value) {used : List Token} {trees : List Tree}
    (elements : Grammar.Elements Value used trees) (lexical : Lexical used) :
    ∃ entries : List (String × Expression),
      MeanAll trees (entries.map fun entry => .element entry.1 entry.2) ∧
        ∀ entry ∈ entries, IsExpression entry.2 := by
  have single : ∀ {used tree}, Grammar.Element Value used tree → Lexical used →
      ∃ key value, Means tree (.element key value) ∧ IsExpression value := by
    intro used tree element lexical
    obtain ⟨key, _, item⟩ := element
    obtain ⟨part, text, named, counts, keyed⟩ := key_means key
    simp only [lexical_cons] at lexical
    obtain ⟨value, means, is⟩ := yields item lexical.2.2
    exact ⟨text, value, means_element named counts keyed means, is⟩
  induction elements with
  | none => exact ⟨[], .nil, nofun⟩
  | last item =>
      obtain ⟨key, value, means, is⟩ := single item lexical
      exact ⟨[(key, value)], .cons means rfl .nil, List.forall_mem_singleton.mpr is⟩
  | more item separates _ ih =>
      simp only [lexical_append] at lexical
      obtain ⟨key, value, means, is⟩ := single item lexical.1
      obtain ⟨entries, others, are⟩ := ih lexical.2.2
      refine ⟨(key, value) :: entries, .cons means rfl ?_, List.forall_mem_cons.mpr ⟨is, are⟩⟩
      cases separates with
      | comma _ newlines => exact .newLines newlines others
      | lines _ newlines => exact .newLines newlines others

theorem primary_yields (yields : Yields Value) {line : Nat} {used : List Token}
    {children : List Tree} (primary : Grammar.Primary Value used children)
    (lexical : Lexical used) :
    ∃ value, Means (.node .term line children) (.expression value) ∧ IsExpression value := by
  cases primary with
  | int is =>
      have number := (lexical_cons.mp lexical).1
      rw [is] at number
      exact ⟨_, means_term (.cons (means_int is) rfl .nil), .literal number⟩
  | float is => exact ⟨_, means_term (.cons (means_float is) rfl .nil), .literal trivial⟩
  | string is => exact ⟨_, means_term_string (.cons (means_string is) rfl .nil), .literal trivial⟩
  | name is =>
      have named := (lexical_cons.mp lexical).1
      rw [is] at named
      exact ⟨_, means_term_name (.cons (means_identifier is) rfl .nil), isExpression_ofName named⟩
  | group _ leading item trailing =>
      simp only [lexical_cons, lexical_append] at lexical
      obtain ⟨value, means, is⟩ := yields item lexical.2.2.1
      exact ⟨value, means_term (.newLines leading (.cons means rfl (.newLines_only trailing))), is⟩
  | call named _ leading inner =>
      simp only [lexical_cons, lexical_append, named] at lexical
      obtain ⟨title, _, _, items, _⟩ := lexical
      have function := means_identifier named
      cases inner with
      | none =>
          refine ⟨.call _ [], means_term (.cons (means_call_nil ?_) rfl .nil), .call title nofun⟩
          exact .cons function rfl (.newLines leading .nil)
      | some inner =>
          obtain ⟨values, inner, are⟩ := items_yield yields inner items
          refine ⟨.call _ values, means_term (.cons (means_call (.cons function rfl ?_)) rfl .nil),
            .call title are⟩
          exact .newLines leading (.cons (means_arguments inner) rfl .nil)
  | tuple _ leading inner =>
      simp only [lexical_cons, lexical_append] at lexical
      obtain ⟨values, inner, are⟩ := optional_yield yields inner lexical.2.2.1
      exact ⟨_, means_term (.cons (means_tuple (.newLines leading inner)) rfl .nil), .array are⟩
  | object _ leading inner =>
      simp only [lexical_cons, lexical_append] at lexical
      obtain ⟨entries, inner, are⟩ := elements_yield yields inner lexical.2.2.1
      exact ⟨_, means_term (.cons (means_object (.newLines leading inner)) rfl .nil),
        .object (Fields.Gathers.ofList entries).distinct (Fields.forall_ofList are)⟩

theorem step_yields {line : Nat} {used : List Token} {step : Tree.Projection} {term : Tree}
    {on : Expression} (taken : Grammar.Step used step) (lexical : Lexical used)
    (means : Means term (.expression on)) (is : IsExpression on) :
    ∃ value, Means (Tree.project line term step) (.expression value) ∧ IsExpression value := by
  cases taken with
  | attr _ key =>
      simp only [lexical_cons, key] at lexical
      exact ⟨_, means_project means (means_getAttr key) rfl, .getAttr is lexical.2.1⟩
  | number _ index =>
      simp only [lexical_cons, index] at lexical
      exact ⟨_, means_project means (means_index_int index) rfl, .getIndex is (.int lexical.2.1)⟩
  | int _ index =>
      simp only [lexical_cons, index] at lexical
      exact ⟨_, means_project means (means_index_int index) rfl, .getIndex is (.int lexical.2.1)⟩
  | string _ index =>
      exact ⟨_, means_project means (means_index_string index) rfl, .getIndex is .string⟩
  | attrSplat => exact ⟨_, means_project means means_attrSplat rfl, .attrSplat is⟩
  | fullSplat => exact ⟨_, means_project means means_fullSplat rfl, .indexSplat is⟩

theorem steps_yield {line : Nat} {used : List Token} {term last : Tree} {on : Expression}
    (steps : Grammar.Steps line used term last) (lexical : Lexical used)
    (means : Means term (.expression on)) (is : IsExpression on) :
    ∃ value, Means last (.expression value) ∧ IsExpression value := by
  induction steps generalizing on with
  | none => exact ⟨on, means, is⟩
  | more taken _ ih =>
      have both := lexical_append.mp lexical
      obtain ⟨value, next, is⟩ := step_yields taken both.1 means is
      exact ih both.2 next is

theorem term_yields (yields : Yields Value) : Yields (Grammar.Term Value) := by
  intro used tree term lexical
  obtain ⟨first, steps⟩ := term
  have both := lexical_append.mp lexical
  obtain ⟨on, means, is⟩ := primary_yields yields first both.1
  exact steps_yield steps both.2 means is

theorem operand_yields (yields : Yields Value) : Yields (Grammar.Operand Value) := by
  intro used tree operand lexical
  cases operand with
  | plain term => exact term_yields yields term lexical
  | signed signs term =>
      obtain ⟨value, means, is⟩ := term_yields yields term (lexical_cons.mp lexical).2
      rcases signs with minus | bang
      · exact ⟨.unary .neg value, means_unary (by rw [minus]; rfl) means, .unary is⟩
      · exact ⟨.unary .not value, means_unary (by rw [bang]; rfl) means, .unary is⟩

theorem operation_yields (yields : Yields Value) : Yields (Grammar.Operation Value) := by
  intro used tree operation lexical
  cases operation with
  | single operand => exact operand_yields yields operand lexical
  | binary operand joins newlines rest =>
      simp only [lexical_cons, lexical_append] at lexical
      obtain ⟨left, before, isLeft⟩ := operand_yields yields operand lexical.1
      obtain ⟨right, after, isRight⟩ := yields rest lexical.2.2.2
      obtain ⟨op, joins⟩ := binaryOperator?_of_isBinaryOperator joins
      exact ⟨_, means_binary before joins newlines after, .binary isLeft isRight⟩

theorem expr_yields (depth : Nat) : Yields (Grammar.Expr depth) := by
  induction depth with
  | zero => exact nofun
  | succ depth ih => exact operation_yields ih

/-! ### Statements -/

/-- The trees of these phrases stand for statements as they are read. -/
def States (Item : Grammar.Phrase) : Prop :=
  ∀ ⦃used tree⦄, Item used tree → Lexical used →
    ∃ statement, Means tree (.statement statement) ∧ IsStatement statement

theorem key_isLabel {token : Token} {tree : Tree} (key : Grammar.Key token tree)
    (lexical : token.kind.IsLexical) :
    ∃ part label, Means tree part ∧ part.isNewline = false ∧ Labels part label ∧
      IsLabel label := by
  cases key with
  | name is =>
      rw [is] at lexical
      exact ⟨_, _, means_identifier is, rfl, .name, .name lexical⟩
  | string is => exact ⟨_, _, means_string is, rfl, .string, .string⟩

theorem labels_yield {used : List Token} {trees : List Tree} (labels : Grammar.Labels used trees)
    (lexical : Lexical used) :
    ∃ parts values, List.Forall₂ Labels parts values ∧
      (∀ {rest others}, MeanAll rest others → MeanAll (trees ++ rest) (parts ++ others)) ∧
        ∀ label ∈ values, IsLabel label := by
  induction labels with
  | none => exact ⟨[], [], .nil, fun rest => rest, nofun⟩
  | more key _ ih =>
      have both := lexical_cons.mp lexical
      obtain ⟨part, label, means, counts, labelled, is⟩ := key_isLabel key both.1
      obtain ⟨parts, values, follow, others, are⟩ := ih both.2
      exact ⟨part :: parts, label :: values, .cons labelled follow,
        fun rest => .cons means counts (others rest), List.forall_mem_cons.mpr ⟨is, are⟩⟩

theorem follow_states (states : States Item) {used : List Token} {trees : List Tree}
    (follow : Grammar.Follow Item used trees) (lexical : Lexical used) :
    ∃ statements : List Statement, MeanAll trees (statements.map .statement) ∧
      ∀ statement ∈ statements, IsStatement statement := by
  induction follow with
  | none newlines => exact ⟨[], .newLines_only newlines, nofun⟩
  | more _ newlines item _ ih =>
      simp only [lexical_append] at lexical
      obtain ⟨statement, means, is⟩ := states item lexical.2.1
      obtain ⟨statements, others, are⟩ := ih lexical.2.2
      exact ⟨statement :: statements, .newLines newlines (.cons means rfl others),
        List.forall_mem_cons.mpr ⟨is, are⟩⟩

theorem body_states (stated : Grammar.Stated Item) (states : States Item) {used : List Token}
    {trees : List Tree} (body : Grammar.Body Item used trees) (lexical : Lexical used) :
    ∃ statements, Hold trees statements ∧ ∀ statement ∈ statements, IsStatement statement := by
  cases body with
  | blank newlines => exact ⟨[], ⟨.newLines_only newlines, fun _ => rfl⟩, nofun⟩
  | items leading item follow =>
      simp only [lexical_append] at lexical
      obtain ⟨statement, means, is⟩ := states item lexical.2.1
      obtain ⟨statements, others, are⟩ := follow_states states follow lexical.2.2
      have holds : Hold _ (statement :: statements) :=
        ⟨.newLines leading (.cons means rfl others), by simp [stated item]⟩
      exact ⟨_, holds, List.forall_mem_cons.mpr ⟨is, are⟩⟩

theorem labelled_states (stated : Grammar.Stated Item) (states : States Item) :
    States (Grammar.Labelled Item) := by
  intro used tree labelled lexical
  obtain ⟨named, labels, _, body, _⟩ := labelled
  simp only [lexical_cons, lexical_append, named] at lexical
  obtain ⟨title, heads, _, inside, _⟩ := lexical
  obtain ⟨parts, values, labelled, prefixed, areLabels⟩ := labels_yield labels heads
  obtain ⟨statements, holds, are⟩ := body_states stated states body inside
  exact ⟨_, means_block (means_identifier named) labelled prefixed holds,
    .block title areLabels are⟩

theorem stmt_states (yields : Yields Value) (nested : States Nested) :
    States (Grammar.Stmt Value Nested) := by
  intro used tree stmt lexical
  cases stmt with
  | attr named _ item =>
      simp only [lexical_cons, named] at lexical
      obtain ⟨value, means, is⟩ := yields item lexical.2.2
      exact ⟨_, means_attr named means, .assign lexical.1 is⟩
  | block inner => exact nested inner lexical

theorem block_states (depth : Nat) : States (Grammar.Block depth) := by
  induction depth with
  | zero => exact nofun
  | succ depth ih =>
      have stated := @Grammar.Stmt.stated (Grammar.Expr depth) _ (Grammar.Block.stated depth)
      exact labelled_states stated (stmt_states (expr_yields depth) ih)

end Phrases

/-- The tree of a document stands for one that can be read, if its tokens can come from a text. -/
theorem document_isDocument {depth line : Nat} {used : List Token} {trees : List Tree}
    (body : Grammar.Document depth used trees) (lexical : Lexical used) :
    ∃ document, Means (Grammar.document line trees) (.document document) ∧
      IsDocument document := by
  have stated := @Grammar.Stmt.stated (Grammar.Expr depth) _ (Grammar.Block.stated depth)
  have states := stmt_states (expr_yields depth) (block_states depth)
  obtain ⟨statements, holds, are⟩ := body_states stated states body lexical
  exact ⟨⟨statements⟩, means_document holds, are⟩

end Image

/-- The tokens of a text hold what a token of a text can hold. -/
theorem Token.ofText_lexical {text : String} {tokens : List Token}
    (scanned : Token.ofText text = .ok tokens) : Lexical tokens := by
  have scan := Token.ofText_eq_ok_iff.mp scanned
  obtain ⟨spans, tiles⟩ := Scan.run_tiles false [] text.toList (congrArg Scan.Result.faults scan)
  change Tiles false [] text.toList (Scan.run false .start text.toList).tokens spans at tiles
  rw [scan] at tiles
  exact tiles.lexical

theorem Tree.mem_of_splitEnd {tokens : List Token} :
    ∀ token ∈ (splitEnd tokens).1, token ∈ tokens := by
  intro token member
  unfold splitEnd at member
  split at member
  · cases member
  · split at member
    · exact List.dropLast_subset tokens member
    · exact member

/-- The image of reading. In a document that is read from a text, names are spelled as names,
labels are names or strings, no keyword stands for a name of a value, integers have no sign, an
index is an integer or a string, and the keys of an object are distinct. -/
theorem Document.parse_isDocument {text : String} {document : Document}
    (parsed : parse text = .ok document) : Image.IsDocument document := by
  unfold parse at parsed
  cases scanned : Token.ofText text with
  | error faults =>
      rw [scanned] at parsed
      cases parsed
  | ok tokens =>
      rw [scanned] at parsed
      cases read : Tree.ofTokens tokens with
      | error faults =>
          change ((Tree.ofTokens tokens).mapError _ >>= fun tree => _) = _ at parsed
          rw [read] at parsed
          cases parsed
      | ok tree =>
          change ((Tree.ofTokens tokens).mapError _ >>= fun tree => _) = _ at parsed
          rw [read] at parsed
          change (Document.ofTree tree).mapError _ = _ at parsed
          obtain ⟨used, rest, line, trees, whole, _, body, rfl⟩ := Tree.ofTokens_reads read
          have lexical : Lexical used := by
            intro token member
            apply Token.ofText_lexical scanned
            apply Tree.mem_of_splitEnd
            rw [whole]
            exact List.mem_append_left rest member
          obtain ⟨meant, means, is⟩ := Image.document_isDocument body lexical
          rw [Document.ofTree, means] at parsed
          cases parsed
          exact is

/-- A keyword as a label, a key that is given twice, and an index behind a dot. -/
theorem Document.parse_isDocument_labelled :
    let document : Document := ⟨[.block "b" [.identifier "true", .literal (.string "c d")]
      [.assign "k" (.object [("x", .getIndex (.identifier "a-1") (.int 7)),
        ("y", .literal .null)])]]⟩
    parse "b true \"c d\" \x7b\nk = \x7bx = 1, y = null, x = a-1.7\x7d\n\x7d" = .ok document ∧
      Image.IsDocument document := by
  intro document
  have parsed : parse "b true \"c d\" \x7b\nk = \x7bx = 1, y = null, x = a-1.7\x7d\n\x7d" =
      .ok document := by decide +kernel
  exact ⟨parsed, parse_isDocument parsed⟩

end ConfigLang
