import ConfigLang.Tree.Statement
/-!
The grammar of documents as a relation between tokens and trees. Each production is stated for
given expressions and blocks one level deeper, so that a number bounds how often the two may be
nested. No other production takes part in the recursion.
-/

set_option autoImplicit false

namespace ConfigLang.Grammar

/-- The tokens that a tree is read from. -/
abbrev Phrase : Type := List Token → Tree → Prop

/-- The tokens that the children of a tree are read from. -/
abbrev Phrases : Type := List Token → List Tree → Prop

/-- The line on which tokens begin. -/
def line : List Token → Nat
  | [] => 0
  | first :: _ => first.place.line

/-- The production of a single token. -/
def leaf (rule : Rule) (token : Token) : Tree :=
  .node rule token.place.line [.leaf token]

/-- `NL*` -/
def Newlines (tokens : List Token) : Prop :=
  ∀ token ∈ tokens, token.kind = .newline

theorem Newlines.nil : Newlines [] := nofun

/-- Newlines are one production, or nothing if there are none. -/
def newLines : List Token → List Tree
  | [] => []
  | first :: rest => [.node .newLines first.place.line ((first :: rest).map .leaf)]

/-- `phrases?` -/
inductive Optional (Inner : Phrases) : Phrases
  | none : Optional Inner [] []
  | some {used : List Token} {trees : List Tree} (inner : Inner used trees) :
      Optional Inner used trees

/-- `items = expr NL* (',' NL* expr NL*)* (',' NL*)?` -/
inductive Items (Value : Phrase) : Phrases
  | last {value trail : List Token} {tree : Tree} (item : Value value tree)
      (trailing : Newlines trail) :
      Items Value (value ++ trail) (tree :: newLines trail)
  | comma {value trail lead : List Token} {tree : Tree} {comma : Token} (item : Value value tree)
      (trailing : Newlines trail) (separates : comma.kind = .comma) (leading : Newlines lead) :
      Items Value (value ++ (trail ++ comma :: lead)) (tree :: (newLines trail ++ newLines lead))
  | more {value trail lead others : List Token} {tree : Tree} {trees : List Tree} {comma : Token}
      (item : Value value tree) (trailing : Newlines trail) (separates : comma.kind = .comma)
      (leading : Newlines lead) (follow : Items Value others trees) :
      Items Value (value ++ (trail ++ comma :: (lead ++ others)))
        (tree :: (newLines trail ++ (newLines lead ++ trees)))

/-- After a comma and newlines there may be more items, or none. -/
theorem Items.separated {Value : Phrase} {value trail lead others : List Token} {tree : Tree}
    {trees : List Tree} {comma : Token} (item : Value value tree) (trailing : Newlines trail)
    (separates : comma.kind = .comma) (leading : Newlines lead)
    (follow : Optional (Items Value) others trees) :
    Items Value (value ++ (trail ++ comma :: (lead ++ others)))
      (tree :: (newLines trail ++ (newLines lead ++ trees))) := by
  cases follow with
  | none => simpa only [List.append_nil] using Items.comma item trailing separates leading
  | some follow => exact .more item trailing separates leading follow

/-- `Ident | StringLit`, as a key or a label -/
inductive Key : Token → Tree → Prop
  | name {token : Token} {name : String} (is : token.kind = .ident name) :
      Key token (leaf .identifier token)
  | string {token : Token} {contents : String} (is : token.kind = .string contents) :
      Key token (leaf .string token)

/-- `elem = (Ident | StringLit) ('=' | ':') expr` -/
inductive Element (Value : Phrase) : Phrase
  | mk {key sign : Token} {value : List Token} {keyTree tree : Tree} (named : Key key keyTree)
      (assigns : sign.kind = .assign ∨ sign.kind = .colon) (item : Value value tree) :
      Element Value (key :: sign :: value) (.node .objectElement key.place.line [keyTree, tree])

/-- `sep = ',' NL* | NL+` -/
inductive Separator : Phrases
  | comma {comma : Token} {lines : List Token} (separates : comma.kind = .comma)
      (newlines : Newlines lines) : Separator (comma :: lines) (newLines lines)
  | lines {lines : List Token} (nonempty : lines ≠ []) (newlines : Newlines lines) :
      Separator lines (newLines lines)

/-- `(elem (sep elem)* sep?)?` -/
inductive Elements (Value : Phrase) : Phrases
  | none : Elements Value [] []
  | last {element : List Token} {tree : Tree} (item : Element Value element tree) :
      Elements Value element [tree]
  | more {element separator others : List Token} {tree : Tree} {lines trees : List Tree}
      (item : Element Value element tree) (separates : Separator separator lines)
      (follow : Elements Value others trees) :
      Elements Value (element ++ (separator ++ others)) (tree :: (lines ++ trees))

/-- `items?`, in a call one production or nothing -/
inductive Arguments (Value : Phrase) : Phrases
  | none : Arguments Value [] []
  | some {used : List Token} {trees : List Tree} (items : Items Value used trees) :
      Arguments Value used [.node .arguments (line used) trees]

/-- `primary = Int | Float | StringLit | Ident | '(' NL* expr NL* ')' | Ident '(' NL* items? ')' |
'[' NL* items? ']' | '{' NL* (elem (sep elem)* sep?)? '}'` -/
inductive Primary (Value : Phrase) : Phrases
  | int {token : Token} {value : Int64} (is : token.kind = .int value) :
      Primary Value [token] [leaf .int token]
  | float {token : Token} {value : Binary64} (is : token.kind = .float value) :
      Primary Value [token] [leaf .float token]
  | string {token : Token} {contents : String} (is : token.kind = .string contents) :
      Primary Value [token] [leaf .string token]
  | name {token : Token} {name : String} (is : token.kind = .ident name) :
      Primary Value [token] [leaf .identifier token]
  | group {opening closing : Token} {lead value trail : List Token} {tree : Tree}
      (opens : opening.kind = .leftParen) (leading : Newlines lead) (item : Value value tree)
      (trailing : Newlines trail) (closes : closing.kind = .rightParen) :
      Primary Value (opening :: (lead ++ (value ++ (trail ++ [closing]))))
        (newLines lead ++ tree :: newLines trail)
  | call {function opening closing : Token} {name : String} {lead items : List Token}
      {trees : List Tree} (named : function.kind = .ident name) (opens : opening.kind = .leftParen)
      (leading : Newlines lead) (inner : Arguments Value items trees)
      (closes : closing.kind = .rightParen) :
      Primary Value (function :: opening :: (lead ++ (items ++ [closing])))
        [.node .call function.place.line (leaf .identifier function :: (newLines lead ++ trees))]
  | tuple {opening closing : Token} {lead items : List Token} {trees : List Tree}
      (opens : opening.kind = .leftBracket) (leading : Newlines lead)
      (inner : Optional (Items Value) items trees) (closes : closing.kind = .rightBracket) :
      Primary Value (opening :: (lead ++ (items ++ [closing])))
        [.node .tuple opening.place.line (newLines lead ++ trees)]
  | object {opening closing : Token} {lead items : List Token} {trees : List Tree}
      (opens : opening.kind = .leftBrace) (leading : Newlines lead)
      (inner : Elements Value items trees) (closes : closing.kind = .rightBrace) :
      Primary Value (opening :: (lead ++ (items ++ [closing])))
        [.node .object opening.place.line (newLines lead ++ trees)]

/-- `proj = '.' Ident | '.' Int | '.' '*' | '[' (Int | StringLit | '*') ']'` -/
inductive Step : List Token → Tree.Projection → Prop
  | attr {dot key : Token} {name : String} (steps : dot.kind = .dot) (is : key.kind = .ident name) :
      Step [dot, key] ⟨.getAttrTerm, .node .getAttr dot.place.line [leaf .identifier key]⟩
  | number {dot index : Token} {value : Int64} (steps : dot.kind = .dot)
      (is : index.kind = .int value) :
      Step [dot, index] ⟨.indexTerm, .node .index dot.place.line [leaf .int index]⟩
  | attrSplat {dot star : Token} (steps : dot.kind = .dot) (is : star.kind = .star) :
      Step [dot, star] ⟨.attrSplatTerm, .node .attrSplat dot.place.line []⟩
  | int {opening index closing : Token} {value : Int64} (opens : opening.kind = .leftBracket)
      (is : index.kind = .int value) (closes : closing.kind = .rightBracket) :
      Step [opening, index, closing]
        ⟨.indexTerm, .node .index opening.place.line [leaf .int index]⟩
  | string {opening index closing : Token} {contents : String}
      (opens : opening.kind = .leftBracket) (is : index.kind = .string contents)
      (closes : closing.kind = .rightBracket) :
      Step [opening, index, closing]
        ⟨.indexTerm, .node .index opening.place.line [leaf .string index]⟩
  | fullSplat {opening star closing : Token} (opens : opening.kind = .leftBracket)
      (is : star.kind = .star) (closes : closing.kind = .rightBracket) :
      Step [opening, star, closing] ⟨.fullSplatTerm, .node .fullSplat opening.place.line []⟩

/-- `proj*`, from a term to the term that it becomes -/
inductive Steps (line : Nat) : List Token → Tree → Tree → Prop
  | none {term : Tree} : Steps line [] term term
  | more {used others : List Token} {step : Tree.Projection} {term last : Tree}
      (taken : Step used step) (follow : Steps line others (Tree.project line term step) last) :
      Steps line (used ++ others) term last

theorem Steps.single {line : Nat} {used : List Token} {step : Tree.Projection} {term : Tree}
    (taken : Step used step) : Steps line used term (Tree.project line term step) := by
  simpa only [List.append_nil] using Steps.more taken Steps.none

/-- `primary proj*` -/
inductive Term (Value : Phrase) : Phrase
  | mk {start steps : List Token} {children : List Tree} {tree : Tree}
      (first : Primary Value start children)
      (follow : Steps (line start) steps (.node .term (line start) children) tree) :
      Term Value (start ++ steps) tree

/-- A primary without steps is a term. -/
theorem Term.alone {Value : Phrase} {used : List Token} {children : List Tree}
    (first : Primary Value used children) :
    Term Value used (.node .term (line used) children) := by
  simpa only [List.append_nil] using Term.mk first Steps.none

/-- `operand = ('-' | '!')? primary proj*` -/
inductive Operand (Value : Phrase) : Phrase
  | plain {used : List Token} {tree : Tree} (term : Term Value used tree) : Operand Value used tree
  | signed {sign : Token} {used : List Token} {tree : Tree}
      (signs : sign.kind = .minus ∨ sign.kind = .bang) (term : Term Value used tree) :
      Operand Value (sign :: used) (.node .unary sign.place.line [.leaf sign, tree])

/-- `expr = operand (binop NL* expr)?` -/
inductive Operation (Value : Phrase) : Phrase
  | single {used : List Token} {tree : Tree} (operand : Operand Value used tree) :
      Operation Value used tree
  | binary {left lines right : List Token} {sign : Token} {leftTree rightTree : Tree}
      (operand : Operand Value left leftTree) (joins : sign.kind.isBinaryOperator = true)
      (newlines : Newlines lines) (rest : Value right rightTree) :
      Operation Value (left ++ sign :: (lines ++ right))
        (.node .binary (line left) [leftTree,
          .node .binaryTerm sign.place.line
            (leaf .binaryOperator sign :: (newLines lines ++ [rightTree]))])

/-- `expr`, with at most so many nested one in another -/
def Expr : Nat → Phrase
  | 0 => fun _ _ => False
  | depth + 1 => Operation (Expr depth)

/-! ### How phrases begin -/

/-- The kinds that a term may begin with. -/
def opensTerm : Kind → Bool
  | .int _ | .float _ | .string _ | .ident _ => true
  | .leftBracket | .leftBrace | .leftParen => true
  | _ => false

/-- The kinds that an expression may begin with. -/
def opensExpr : Kind → Bool
  | .minus | .bang => true
  | kind => opensTerm kind

theorem opensExpr_of_opensTerm {kind : Kind} (opens : opensTerm kind = true) :
    opensExpr kind = true := by
  cases kind with
  | minus | bang => rfl
  | _ => exact opens

/-- No expression begins with a token of another kind. -/
theorem ne_of_opensExpr {token : Token} {kind : Kind} (opens : opensExpr token.kind = true)
    (other : opensExpr kind = false) : token.kind ≠ kind := by
  intro same
  rw [same, other] at opens
  cases opens

/-- The phrases begin as expressions do. -/
def Opens (Value : Phrase) : Prop :=
  ∀ ⦃used tree⦄, Value used tree → ∃ first rest, used = first :: rest ∧ opensExpr first.kind = true

theorem Opens.ne_nil {Value : Phrase} (opens : Opens Value) {used : List Token} {tree : Tree}
    (item : Value used tree) : used ≠ [] := by
  obtain ⟨first, rest, rfl, _⟩ := opens item
  exact nofun

theorem Primary.opens {Value : Phrase} {used : List Token} {children : List Tree}
    (primary : Primary Value used children) :
    ∃ first rest, used = first :: rest ∧ opensTerm first.kind = true := by
  cases primary with
  | int is | float is | string is | name is => exact ⟨_, _, rfl, by rw [is]; rfl⟩
  | group opens | tuple opens | object opens => exact ⟨_, _, rfl, by rw [opens]; rfl⟩
  | call named => exact ⟨_, _, rfl, by rw [named]; rfl⟩

theorem Primary.ne_nil {Value : Phrase} {used : List Token} {children : List Tree}
    (primary : Primary Value used children) : used ≠ [] := by
  obtain ⟨first, rest, rfl, _⟩ := primary.opens
  exact nofun

theorem Items.opens {Value : Phrase} {used : List Token} {trees : List Tree}
    (items : Items Value used trees) (opens : Opens Value) :
    ∃ first rest, used = first :: rest ∧ opensExpr first.kind = true := by
  cases items with
  | last item | comma item | more item =>
      obtain ⟨first, rest, rfl, opens⟩ := opens item
      exact ⟨first, _, rfl, opens⟩

theorem Items.ne_nil {Value : Phrase} {used : List Token} {trees : List Tree}
    (items : Items Value used trees) (opens : Opens Value) : used ≠ [] := by
  obtain ⟨first, rest, rfl, _⟩ := items.opens opens
  exact nofun

theorem Term.opens {Value : Phrase} {used : List Token} {tree : Tree}
    (term : Term Value used tree) :
    ∃ first rest, used = first :: rest ∧ opensTerm first.kind = true := by
  obtain ⟨first, _⟩ := term
  obtain ⟨token, rest, rfl, opens⟩ := first.opens
  exact ⟨token, _, rfl, opens⟩

theorem Operand.opens (Value : Phrase) : Opens (Operand Value) := by
  intro used tree operand
  cases operand with
  | plain term =>
      obtain ⟨token, rest, rfl, opens⟩ := term.opens
      exact ⟨token, rest, rfl, opensExpr_of_opensTerm opens⟩
  | signed signs =>
      refine ⟨_, _, rfl, ?_⟩
      rcases signs with minus | bang
      · rw [minus]
        rfl
      · rw [bang]
        rfl

theorem Operation.opens (Value : Phrase) : Opens (Operation Value) := by
  intro used tree operation
  cases operation with
  | single operand => exact Operand.opens Value operand
  | binary operand =>
      obtain ⟨token, rest, rfl, opens⟩ := Operand.opens Value operand
      exact ⟨token, _, rfl, opens⟩

theorem Expr.opens (depth : Nat) : Opens (Expr depth) := by
  cases depth with
  | zero => exact nofun
  | succ depth => exact Operation.opens (Expr depth)

/-- `(Ident | StringLit)*` -/
inductive Labels : Phrases
  | none : Labels [] []
  | more {label : Token} {others : List Token} {tree : Tree} {trees : List Tree}
      (named : Key label tree) (follow : Labels others trees) :
      Labels (label :: others) (tree :: trees)

/-- `stmt`, given the values of attributes and the blocks -/
inductive Stmt (Value Nested : Phrase) : Phrase
  | attr {key sign : Token} {name : String} {value : List Token} {tree : Tree}
      (named : key.kind = .ident name) (assigns : sign.kind = .assign) (item : Value value tree) :
      Stmt Value Nested (key :: sign :: value)
        (.node .attr key.place.line [leaf .identifier key, tree])
  | block {used : List Token} {tree : Tree} (inner : Nested used tree) : Stmt Value Nested used tree

/-- `(NL+ stmt)* NL*` -/
inductive Follow (Item : Phrase) : Phrases
  | none {lines : List Token} (newlines : Newlines lines) : Follow Item lines (newLines lines)
  | more {lines used others : List Token} {tree : Tree} {trees : List Tree} (nonempty : lines ≠ [])
      (newlines : Newlines lines) (item : Item used tree) (follow : Follow Item others trees) :
      Follow Item (lines ++ (used ++ others)) (newLines lines ++ tree :: trees)

/-- `document = NL* (stmt (NL+ stmt)*)? NL*` -/
inductive Body (Item : Phrase) : Phrases
  | blank {lines : List Token} (newlines : Newlines lines) : Body Item lines (newLines lines)
  | items {lead used others : List Token} {tree : Tree} {trees : List Tree}
      (leading : Newlines lead) (item : Item used tree) (follow : Follow Item others trees) :
      Body Item (lead ++ (used ++ others)) (newLines lead ++ tree :: trees)

theorem Body.of_item {Item : Phrase} {used others : List Token} {tree : Tree} {trees : List Tree}
    (item : Item used tree) (follow : Follow Item others trees) :
    Body Item (used ++ others) (tree :: trees) := by
  simpa [newLines] using Body.items .nil item follow

theorem Follow.body {Item : Phrase} {used : List Token} {trees : List Tree}
    (follow : Follow Item used trees) : Body Item used trees := by
  cases follow with
  | none newlines => exact .blank newlines
  | more _ newlines item follow => exact .items newlines item follow

/-- Newlines before a body that does not begin with one separate its statements from others. -/
theorem Body.after_newlines {Item : Phrase} {lines used : List Token} {trees : List Tree}
    (nonempty : lines ≠ []) (newlines : Newlines lines) (body : Body Item used trees)
    (past : ∀ token ∈ used.head?, token.kind ≠ .newline) :
    Follow Item (lines ++ used) (newLines lines ++ trees) := by
  cases body with
  | blank others =>
      cases used with
      | nil => simpa [newLines] using Follow.none newlines
      | cons token used => exact absurd (others token List.mem_cons_self) (past token rfl)
  | @items lead _ _ _ _ leading item follow =>
      cases lead with
      | nil => simpa [newLines] using Follow.more nonempty newlines item follow
      | cons token lead => exact absurd (leading token List.mem_cons_self) (past token rfl)

/-- `Ident (Ident | StringLit)* '{' document '}'` -/
inductive Labelled (Item : Phrase) : Phrase
  | mk {title opening closing : Token} {name : String} {labels inner : List Token}
      {labelTrees trees : List Tree} (named : title.kind = .ident name)
      (labelled : Labels labels labelTrees) (opens : opening.kind = .leftBrace)
      (body : Body Item inner trees) (closes : closing.kind = .rightBrace) :
      Labelled Item (title :: (labels ++ opening :: (inner ++ [closing])))
        (.node .block title.place.line
          (leaf .identifier title :: (labelTrees ++ Tree.body (line inner) trees)))

/-- A block, with at most so many expressions and blocks nested one in another -/
def Block : Nat → Phrase
  | 0 => fun _ _ => False
  | depth + 1 => Labelled (Stmt (Expr depth) (Block depth))

/-- Statements begin with a name. -/
def Named (Item : Phrase) : Prop :=
  ∀ ⦃used tree⦄, Item used tree → ∃ first rest name, used = first :: rest ∧ first.kind = .ident name

theorem Labelled.named (Item : Phrase) : Named (Labelled Item) := by
  intro used tree labelled
  cases labelled with
  | mk named => exact ⟨_, _, _, rfl, named⟩

theorem Block.named (depth : Nat) : Named (Block depth) := by
  cases depth with
  | zero => exact nofun
  | succ depth => exact Labelled.named _

theorem Stmt.named {Value Nested : Phrase} (nested : Named Nested) : Named (Stmt Value Nested) := by
  intro used tree stmt
  cases stmt with
  | attr named => exact ⟨_, _, _, rfl, named⟩
  | block inner => exact nested inner

theorem Body.eq_nil_of_nil {Item : Phrase} {trees : List Tree} (named : Named Item)
    (body : Body Item [] trees) : trees = [] := by
  generalize empty : ([] : List Token) = used at body
  cases body with
  | blank =>
      subst empty
      rfl
  | items _ item =>
      obtain ⟨_, _, _, rfl, _⟩ := named item
      simp at empty

/-- The trees of statements count as statements. -/
def Stated (Item : Phrase) : Prop :=
  ∀ ⦃used tree⦄, Item used tree → Tree.isStatement tree = true

theorem Labelled.stated (Item : Phrase) : Stated (Labelled Item) := by
  intro used tree labelled
  obtain ⟨⟩ := labelled
  rfl

theorem Block.stated (depth : Nat) : Stated (Block depth) := by
  cases depth with
  | zero => exact nofun
  | succ depth => exact Labelled.stated _

theorem Stmt.stated {Value Nested : Phrase} (nested : Stated Nested) :
    Stated (Stmt Value Nested) := by
  intro used tree stmt
  cases stmt with
  | attr => rfl
  | block inner => exact nested inner

/-- No `=` is the second token of these phrases. -/
def Unassigned (Item : Phrase) : Prop :=
  ∀ ⦃used tree⦄, Item used tree →
    ∃ first second rest, used = first :: second :: rest ∧ second.kind ≠ .assign

theorem Labelled.unassigned (Item : Phrase) : Unassigned (Labelled Item) := by
  intro used tree labelled
  obtain ⟨_, labels, opens, _, _⟩ := labelled
  cases labels with
  | none =>
      refine ⟨_, _, _, rfl, ?_⟩
      rw [opens]
      exact nofun
  | more key =>
      refine ⟨_, _, _, rfl, ?_⟩
      cases key with
      | name is | string is =>
          rw [is]
          exact nofun

theorem Block.unassigned (depth : Nat) : Unassigned (Block depth) := by
  cases depth with
  | zero => exact nofun
  | succ depth => exact Labelled.unassigned _

/-- `document`, with at most so many expressions and blocks nested one in another -/
def Document (depth : Nat) : Phrases :=
  Body (Stmt (Expr depth) (Block depth))

/-- The tree of a document that begins on a line. -/
def document (line : Nat) (trees : List Tree) : Tree :=
  .node .start line (if trees.any Tree.isStatement then [.node .body line trees] else [])

end ConfigLang.Grammar
