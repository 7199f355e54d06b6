import ConfigLang.Proofs.Completeness
import ConfigLang.Proofs.Entries
import ConfigLang.Proofs.Literals
import ConfigLang.Proofs.Lowering
/-!
The text of a document is read as that document. Each piece of the text is scanned as the tokens of
a phrase, and the tree of the phrase stands for what the piece was written for.
-/

set_option autoImplicit false

namespace ConfigLang

namespace Source

open Scan ConfigLang.Part

/-- The height of the tree of an expression with so many levels below it. -/
def height (levels : Nat) : Nat :=
  3 * levels + 3

/-- Tokens of an expression whose tree stands for a value. -/
def Spells (depth levels : Nat) (value : Expression) (tokens : List Token) : Prop :=
  ∃ tree, Grammar.Expr depth tokens tree ∧ tree.height ≤ height levels ∧
    Means tree (.expression value)

/-- Tokens of a term whose tree stands for a value. -/
def SpellsTerm (depth levels : Nat) (value : Expression) (tokens : List Token) : Prop :=
  ∃ tree, Grammar.Term (Grammar.Expr depth) tokens tree ∧ tree.height ≤ height levels ∧
    Means tree (.expression value)

/-- The text is one of the value, whatever follows that does not go on with it. -/
def Writes (text : String) (depth levels : Nat) (value : Expression) : Prop :=
  ∀ rest, Breaks rest → Gives text (Spells depth levels value) rest

section Pieces

variable {depth levels : Nat} {rest : List Char}

theorem breaks_cons {char : Char} (ends : continuesName char = false ∧ char ≠ '.') :
    Breaks (char :: rest) := by
  intro first same
  cases same
  exact ends

theorem SpellsTerm.spells {value : Expression} {tokens : List Token}
    (spells : SpellsTerm depth levels value tokens) : Spells (depth + 1) levels value tokens := by
  obtain ⟨tree, term, low, means⟩ := spells
  exact ⟨tree, .single (.plain term), low, means⟩

/-- A term without steps, from what is in it. -/
theorem spellsTerm_of_primary {value : Expression} {tokens : List Token} {children : List Tree}
    (primary : Grammar.Primary (Grammar.Expr depth) tokens children)
    (low : 1 + Tree.highest children ≤ height levels)
    (means : Means (.node .term (Grammar.line tokens) children) (.expression value)) :
    SpellsTerm depth levels value tokens := by
  refine ⟨_, .alone primary, ?_, means⟩
  rw [Tree.height_node]
  exact low

/-! ### Literals and names -/

theorem gives_word {word : String} (named : isName word) (breaks : Breaks rest) :
    Gives word (SpellsTerm depth levels (ofName word)) rest := by
  refine (gives_name named breaks.endsName).imp ?_
  rintro tokens ⟨token, rfl, is⟩
  refine spellsTerm_of_primary (.name is) ?_
    (means_term_name (.cons (means_identifier is) rfl .nil))
  simp only [Tree.highest_cons, Tree.highest_nil, Tree.height_production, height]
  omega

theorem gives_scalar {value : Scalar} (literal : IsLiteral value) (breaks : Breaks rest) :
    Gives (scalar value) (SpellsTerm depth levels (.literal value)) rest := by
  cases literal with
  | null => exact gives_word rfl breaks
  | bool value =>
      cases value with
      | true => exact gives_word rfl breaks
      | false => exact gives_word rfl breaks
  | int unsigned =>
      refine (gives_int unsigned breaks).imp ?_
      rintro tokens ⟨token, rfl, is⟩
      refine spellsTerm_of_primary (.int is) ?_ (means_term (.cons (means_int is) rfl .nil))
      simp only [Tree.highest_cons, Tree.highest_nil, Tree.height_production, height]
      omega
  | string quotable =>
      refine (gives_quote quotable).imp ?_
      rintro tokens ⟨token, rfl, is⟩
      refine spellsTerm_of_primary (.string is) ?_
        (means_term_string (.cons (means_string is) rfl .nil))
      simp only [Tree.highest_cons, Tree.highest_nil, Tree.height_production, height]
      omega

/-! ### Punctuation -/

theorem gives_leftParen : Gives "(" (Only .leftParen) rest :=
  gives_mark rfl rfl fun _ _ => ⟨rfl, nofun⟩

theorem gives_rightParen : Gives ")" (Only .rightParen) rest :=
  gives_mark rfl rfl fun _ _ => ⟨rfl, nofun⟩

theorem gives_leftBracket : Gives "[" (Only .leftBracket) rest :=
  gives_mark rfl rfl fun _ _ => ⟨rfl, nofun⟩

theorem gives_rightBracket : Gives "]" (Only .rightBracket) rest :=
  gives_mark rfl rfl fun _ _ => ⟨rfl, nofun⟩

theorem gives_newline : Gives "\n" (Only .newline) rest :=
  gives_mark rfl rfl fun _ _ => ⟨rfl, nofun⟩

/-- A piece between blanks. -/
theorem gives_spaced {text : String} {Phrase : List Token → Prop}
    (gives : Gives text Phrase (' ' :: rest)) : Gives (" " ++ text ++ " ") Phrase rest := by
  refine ((gives_space.append gives).append gives_space).imp ?_
  rintro tokens ⟨_, _, rfl, ⟨_, _, rfl, rfl, phrase⟩, rfl⟩
  simpa using phrase

theorem gives_assign : Gives " = " (Only .assign) rest := by
  have sign : Gives "=" (Only .assign) (' ' :: rest) :=
    gives_mark rfl rfl (by rintro _ ⟨⟩; exact ⟨rfl, nofun⟩)
  exact gives_spaced sign

theorem gives_comma : Gives ", " (Only .comma) rest := by
  have comma : Gives "," (Only .comma) (" ".toList ++ rest) :=
    gives_mark rfl rfl fun _ _ => ⟨rfl, nofun⟩
  refine (comma.append gives_space).imp ?_
  rintro tokens ⟨_, _, rfl, only, rfl⟩
  simpa using only

/-! ### Operands and steps -/

/-- An expression in parentheses. -/
theorem gives_group {value : Expression} {text : String} (writes : Writes text depth levels value) :
    Gives (group text) (fun tokens => ∃ tree,
      Grammar.Primary (Grammar.Expr depth) tokens [tree] ∧ tree.height ≤ height levels ∧
        Means tree (.expression value)) rest := by
  have inner := writes (')' :: rest) (breaks_cons (by decide))
  refine ((gives_leftParen.append inner).append gives_rightParen).imp ?_
  rintro tokens ⟨_, _, rfl, ⟨_, used, rfl, ⟨opening, rfl, opens⟩, tree, expr, low, means⟩, closing,
    rfl, closes⟩
  have group := Grammar.Primary.group opens .nil expr .nil closes
  exact ⟨tree, by simpa [Grammar.newLines] using group, low, means⟩

/-- Tokens of a step that leads from one value to another. -/
def SpellsStep (on value : Expression) (tokens : List Token) : Prop :=
  ∃ step access, Grammar.Step tokens step ∧ step.step.height ≤ 3 ∧
    Means step.step (.access access) ∧
    ofRule step.term [.expression on, .access access] = .ok (.expression value)

/-- An operand in parentheses and a step from it. -/
theorem gives_step {on value : Expression} {text suffix : String}
    (writes : Writes text depth levels on) (step : Gives suffix (SpellsStep on value) rest) :
    Gives (group text ++ suffix) (SpellsTerm depth (levels + 1) value) rest := by
  refine ((gives_group writes).append step).imp ?_
  rintro tokens ⟨start, used, rfl, ⟨tree, group, low, means⟩, step, access, taken, short, goes,
    made⟩
  have on : Means (.node .term (Grammar.line start) [tree]) (.expression on) :=
    means_term (.cons means rfl .nil)
  refine ⟨_, .mk group (.single taken), ?_, means_project on goes made⟩
  simp only [Tree.project, Tree.height_node, Tree.highest_cons, Tree.highest_nil, height] at low ⊢
  omega

theorem gives_attr {on : Expression} {name : String} (named : isName name) (ends : EndsName rest) :
    Gives ("." ++ name) (SpellsStep on (.getAttr on name)) rest := by
  have dot : Gives "." (Only .dot) (name.toList ++ rest) :=
    gives_mark rfl rfl fun _ _ => ⟨rfl, nofun⟩
  refine (dot.append (gives_name named ends)).imp ?_
  rintro tokens ⟨_, _, rfl, ⟨dot, rfl, steps⟩, key, rfl, is⟩
  refine ⟨_, _, .attr steps is, ?_, means_getAttr is, rfl⟩
  simp [Tree.height_production]

theorem gives_attrSplat {on : Expression} :
    Gives ".*" (SpellsStep on (.attrSplat on)) rest := by
  have dot : Gives "." (Only .dot) ("*".toList ++ rest) :=
    gives_mark rfl rfl fun _ _ => ⟨rfl, nofun⟩
  have star : Gives "*" (Only .star) rest := gives_mark rfl rfl fun _ _ => ⟨rfl, nofun⟩
  refine (dot.append star).imp ?_
  rintro tokens ⟨_, _, rfl, ⟨dot, rfl, steps⟩, star, rfl, is⟩
  refine ⟨_, _, .attrSplat steps is, ?_, means_attrSplat, rfl⟩
  simp

/-- A step to what is written between brackets. -/
theorem gives_subscript {on value : Expression} {text : String} {kind : Kind}
    (inner : Gives text (Only kind) (']' :: rest))
    (spells : ∀ {opening index closing : Token}, opening.kind = .leftBracket → index.kind = kind →
      closing.kind = .rightBracket → SpellsStep on value [opening, index, closing]) :
    Gives ("[" ++ text ++ "]") (SpellsStep on value) rest := by
  refine ((gives_leftBracket.append inner).append gives_rightBracket).imp ?_
  rintro tokens ⟨_, _, rfl, ⟨_, _, rfl, ⟨opening, rfl, opens⟩, index, rfl, is⟩, closing, rfl, closes⟩
  exact spells opens is closes

theorem gives_fullSplat {on : Expression} :
    Gives "[*]" (SpellsStep on (.indexSplat on)) rest := by
  have star : Gives "*" (Only .star) (']' :: rest) := gives_mark rfl rfl fun _ _ => ⟨rfl, nofun⟩
  refine gives_subscript star fun opens is closes => ?_
  exact ⟨_, _, .fullSplat opens is closes, by simp, means_fullSplat, rfl⟩

theorem gives_index_int {on : Expression} {text : String} {value : Int64}
    (inner : Gives text (Only (.int value)) (']' :: rest)) :
    Gives ("[" ++ text ++ "]") (SpellsStep on (.getIndex on (.int value))) rest := by
  refine gives_subscript inner fun opens is closes => ?_
  exact ⟨_, _, .int opens is closes, by simp [Tree.height_production], means_index_int is, rfl⟩

theorem gives_index_string {on : Expression} {text contents : String}
    (inner : Gives text (Only (.string contents)) (']' :: rest)) :
    Gives ("[" ++ text ++ "]") (SpellsStep on (.getIndex on (.string contents))) rest := by
  refine gives_subscript inner fun opens is closes => ?_
  exact ⟨_, _, .string opens is closes, by simp [Tree.height_production], means_index_string is, rfl⟩

theorem gives_index {on : Expression} {index : Scalar} (literal : IsIndex index) :
    Gives ("[" ++ scalar index ++ "]") (SpellsStep on (.getIndex on index)) rest := by
  cases literal with
  | int unsigned => exact gives_index_int (gives_int unsigned (breaks_cons (by decide)))
  | string quotable => exact gives_index_string (gives_quote quotable)

/-! ### Operators -/

/-- The token of an operator before its operand. -/
def Signs (op : UnaryOperator) (tokens : List Token) : Prop :=
  ∃ sign, tokens = [sign] ∧ (sign.kind = .minus ∨ sign.kind = .bang) ∧
    unaryOperator? sign.kind = some op

theorem gives_sign (op : UnaryOperator) (apart : ∀ char ∈ rest.head?, char ≠ '=') :
    Gives op.symbol (Signs op) rest := by
  cases op with
  | neg =>
      have minus : Gives "-" (Only .minus) rest := gives_mark rfl rfl fun _ _ => ⟨rfl, nofun⟩
      refine minus.imp ?_
      rintro tokens ⟨sign, rfl, is⟩
      exact ⟨sign, rfl, .inl is, by rw [is]; rfl⟩
  | not =>
      have alone : ∀ second ∈ rest.head?, double? '!' second = none := by
        intro second first
        simp [double?, apart second first]
      have bang : Gives "!" (Only .bang) rest :=
        gives_mark rfl rfl fun second first => ⟨alone second first, nofun⟩
      refine bang.imp ?_
      rintro tokens ⟨sign, rfl, is⟩
      exact ⟨sign, rfl, .inr is, by rw [is]; rfl⟩

theorem group_toList (text : String) (rest : List Char) :
    (group text).toList ++ rest = '(' :: (text.toList ++ ')' :: rest) := by
  simp [group]

theorem gives_unary {op : UnaryOperator} {operand : Expression} {text : String}
    (writes : Writes text depth levels operand) :
    Gives (op.symbol ++ group text) (Spells (depth + 1) (levels + 1) (.unary op operand)) rest := by
  have sign : Gives op.symbol (Signs op) ((group text).toList ++ rest) := by
    rw [group_toList]
    exact gives_sign op (by rintro _ ⟨⟩; decide)
  refine (sign.append (gives_group writes)).imp ?_
  rintro tokens ⟨_, used, rfl, ⟨sign, rfl, signs, is⟩, tree, group, low, means⟩
  refine ⟨_, .single (.signed signs (.alone group)), ?_,
    means_unary is (means_term (.cons means rfl .nil))⟩
  simp only [Tree.height_node, Tree.height_leaf, Tree.highest_cons, Tree.highest_nil, height]
    at low ⊢
  omega

/-- The token of an operator between two operands. -/
def Joins (op : BinaryOperator) (tokens : List Token) : Prop :=
  ∃ sign, tokens = [sign] ∧ sign.kind.isBinaryOperator = true ∧ binaryOperator? sign.kind = some op

theorem Joins.of_only {op : BinaryOperator} {kind : Kind} {tokens : List Token}
    (joins : kind.isBinaryOperator = true) (is : binaryOperator? kind = some op)
    (only : Only kind tokens) : Joins op tokens := by
  obtain ⟨sign, rfl, rfl⟩ := only
  exact ⟨sign, rfl, joins, is⟩

theorem gives_operator (op : BinaryOperator) : Gives op.symbol (Joins op) (' ' :: rest) := by
  have apart : ∀ {char : Char}, double? char ' ' = none → ∀ second ∈ (' ' :: rest).head?,
      double? char second = none ∧ (char = '/' → second ≠ '/' ∧ second ≠ '*') := by
    rintro char alone _ ⟨⟩
    exact ⟨alone, fun _ => by decide⟩
  cases op with
  | eq | notEq | lessEq | greaterEq | and | or =>
      exact (gives_double rfl rfl).imp fun _ only => .of_only rfl rfl only
  | less | greater | add | sub | mul | div | mod =>
      exact (gives_mark rfl rfl (apart rfl)).imp fun _ only => .of_only rfl rfl only

theorem gives_binary {op : BinaryOperator} {left right : Expression} {before after : String}
    (first : Writes before (depth + 1) levels left) (second : Writes after depth levels right) :
    Gives (group before ++ (" " ++ op.symbol ++ " ") ++ group after)
      (Spells (depth + 2) (levels + 1) (.binary op left right)) rest := by
  refine (((gives_group first).append (gives_spaced (gives_operator op))).append
    (gives_group second)).imp ?_
  rintro tokens ⟨_, used, rfl, ⟨start, _, rfl, ⟨tree, group, low, means⟩, sign, rfl, joins, is⟩,
    other, inner, lowOther, meansOther⟩
  have operand := Grammar.Operand.plain (Grammar.Term.alone group)
  have value : Grammar.Expr (depth + 1) used _ := .single (.plain (.alone inner))
  have whole := Grammar.Operation.binary operand joins .nil value
  rw [List.append_assoc]
  refine ⟨_, whole, ?_, means_binary (means_term (.cons means rfl .nil)) is .nil
    (means_term (.cons meansOther rfl .nil))⟩
  simp only [Grammar.newLines, List.nil_append, Tree.height_node, Tree.highest_cons,
    Tree.highest_nil, Tree.height_production, height] at low lowOther ⊢
  omega

/-! ### Lists -/

/-- Tokens of expressions with commas between them, or nothing. -/
def SpellsItems (depth levels : Nat) (values : List Expression) (tokens : List Token) : Prop :=
  ∃ trees, Grammar.Optional (Grammar.Items (Grammar.Expr depth)) tokens trees ∧
    Tree.highest trees ≤ height levels ∧ MeanAll trees (values.map .expression)

theorem gives_expressions {items : List Expression}
    (writes : ∀ item ∈ items, Writes (expression item) depth levels item) (breaks : Breaks rest) :
    Gives (expressions items) (SpellsItems depth levels items) rest := by
  induction items with
  | nil =>
      refine gives_nothing.imp ?_
      rintro tokens rfl
      exact ⟨[], .none, Nat.zero_le _, .nil⟩
  | cons first items ih =>
      rw [List.forall_mem_cons] at writes
      cases items with
      | nil =>
          refine (writes.1 rest breaks).imp ?_
          rintro tokens ⟨tree, expr, low, means⟩
          have items := Grammar.Items.last expr .nil
          rw [List.append_nil] at items
          exact ⟨[tree], .some items, by simpa using low, .cons means rfl .nil⟩
      | cons next items =>
          have value := writes.1 (", ".toList ++ ((expressions (next :: items)).toList ++ rest))
            (breaks_cons (by decide))
          refine ((value.append gives_comma).append (ih writes.2)).imp ?_
          rintro tokens ⟨_, others, rfl, ⟨used, _, rfl, ⟨tree, expr, low, means⟩, comma, rfl, is⟩,
            trees, follow, lowOthers, meansOthers⟩
          have items := Grammar.Items.separated expr .nil is .nil follow
          rw [List.append_assoc]
          refine ⟨tree :: trees, .some items, ?_, .cons means rfl meansOthers⟩
          rw [Tree.highest_cons]
          omega

theorem gives_array {items : List Expression}
    (writes : ∀ item ∈ items, Writes (expression item) depth levels item) :
    Gives (expression (.array items)) (SpellsTerm depth (levels + 1) (.array items)) rest := by
  rw [expression]
  have inner : Gives _ (SpellsItems depth levels items) (']' :: rest) :=
    gives_expressions writes (breaks_cons (by decide))
  refine ((gives_leftBracket.append inner).append gives_rightBracket).imp ?_
  rintro tokens ⟨_, _, rfl, ⟨_, used, rfl, ⟨opening, rfl, opens⟩, trees, items, low, means⟩,
    closing, rfl, closes⟩
  have tuple : Means (.node .tuple opening.place.line trees) _ := means_tuple means
  rw [List.append_assoc]
  refine spellsTerm_of_primary (.tuple opens .nil items closes) ?_
    (means_term (.cons tuple rfl .nil))
  simp only [Grammar.newLines, List.nil_append, Tree.highest_cons, Tree.highest_nil,
    Tree.height_node, height] at low ⊢
  omega

/-- The arguments of a call, which are no production if there are none. -/
theorem arguments_of_items {used : List Token} {trees : List Tree} {function : Token}
    {name : String} {values : List Expression} {line : Nat}
    (items : Grammar.Optional (Grammar.Items (Grammar.Expr depth)) used trees)
    (low : Tree.highest trees ≤ height levels) (means : MeanAll trees (values.map .expression))
    (is : function.kind = .ident name) :
    ∃ inner, Grammar.Arguments (Grammar.Expr depth) used inner ∧
      Tree.highest inner ≤ height levels + 1 ∧
      Means (.node .call line (Grammar.leaf .identifier function :: inner))
        (.expression (.call name values)) := by
  have head := means_identifier is
  cases items with
  | none =>
      obtain ⟨all, read, none⟩ := means
      cases read
      obtain rfl := List.map_eq_nil_iff.mp none.symm
      exact ⟨[], .none, Nat.zero_le _, means_call_nil (.cons head rfl .nil)⟩
  | some items =>
      have passed : Means (.node .arguments (Grammar.line used) trees) _ := means_arguments means
      refine ⟨_, .some items, ?_, means_call (.cons head rfl (.cons passed rfl .nil))⟩
      rw [Tree.highest_cons, Tree.height_node, Tree.highest_nil]
      omega

theorem gives_call {function : String} {arguments : List Expression} (named : isName function)
    (writes : ∀ argument ∈ arguments, Writes (expression argument) depth levels argument) :
    Gives (expression (.call function arguments))
      (SpellsTerm depth (levels + 1) (.call function arguments)) rest := by
  rw [expression]
  have head : ∀ rest, Gives function (Only (.ident function)) ('(' :: rest) :=
    fun rest => gives_name named (breaks_cons (by decide)).endsName
  have inner : Gives _ (SpellsItems depth levels arguments) (')' :: rest) :=
    gives_expressions writes (breaks_cons (by decide))
  refine ((((head _).append gives_leftParen).append inner).append gives_rightParen).imp ?_
  rintro tokens ⟨_, _, rfl, ⟨_, used, rfl, ⟨_, _, rfl, ⟨name, rfl, is⟩, opening, rfl, opens⟩,
    trees, items, low, means⟩, closing, rfl, closes⟩
  obtain ⟨inner, arguments, lowInner, call⟩ := arguments_of_items items low means is
  rw [List.append_assoc]
  refine spellsTerm_of_primary (.call is opens .nil arguments closes) ?_
    (means_term (.cons call rfl .nil))
  simp only [Grammar.newLines, List.nil_append, Tree.highest_cons, Tree.highest_nil,
    Tree.height_node, Tree.height_production, height] at lowInner ⊢
  omega

/-- Tokens of a key and its value. -/
def SpellsEntry (depth levels : Nat) (entry : String × Expression) (tokens : List Token) : Prop :=
  ∃ tree, Grammar.Element (Grammar.Expr depth) tokens tree ∧ tree.height ≤ height levels + 1 ∧
    Means tree (.element entry.1 entry.2)

/-- Tokens of keys and their values with commas between them, or nothing. -/
def SpellsEntries (depth levels : Nat) (entries : List (String × Expression))
    (tokens : List Token) : Prop :=
  ∃ trees, Grammar.Elements (Grammar.Expr depth) tokens trees ∧
    Tree.highest trees ≤ height levels + 1 ∧
    MeanAll trees (entries.map fun entry => .element entry.1 entry.2)

theorem gives_entry {entry : String × Expression} (quotable : IsQuotable entry.1)
    (writes : Writes (expression entry.2) depth levels entry.2) (breaks : Breaks rest) :
    Gives (quote entry.1 ++ " = " ++ expression entry.2) (SpellsEntry depth levels entry) rest := by
  refine (((gives_quote quotable).append gives_assign).append (writes rest breaks)).imp ?_
  rintro tokens ⟨_, used, rfl, ⟨_, _, rfl, ⟨key, rfl, is⟩, sign, rfl, assigns⟩, tree, expr, low,
    means⟩
  refine ⟨_, .mk (.string is) (.inl assigns) expr, ?_,
    means_element (means_string is) rfl rfl means⟩
  simp only [Tree.height_node, Tree.highest_cons, Tree.highest_nil, Tree.height_production, height]
    at low ⊢
  omega

theorem gives_entries {fields : List (String × Expression)}
    (quotable : ∀ entry ∈ fields, IsQuotable entry.1)
    (writes : ∀ entry ∈ fields, Writes (expression entry.2) depth levels entry.2)
    (breaks : Breaks rest) :
    Gives (entries fields) (SpellsEntries depth levels fields) rest := by
  induction fields with
  | nil =>
      refine gives_nothing.imp ?_
      rintro tokens rfl
      exact ⟨[], .none, Nat.zero_le _, .nil⟩
  | cons first others ih =>
      rw [List.forall_mem_cons] at quotable writes
      cases others with
      | nil =>
          refine (gives_entry quotable.1 writes.1 breaks).imp ?_
          rintro tokens ⟨tree, element, low, means⟩
          exact ⟨[tree], .last element, by simpa using low, .cons means rfl .nil⟩
      | cons next others =>
          have ends : Breaks (", ".toList ++ ((entries (next :: others)).toList ++ rest)) :=
            breaks_cons (by decide)
          have entry := gives_entry quotable.1 writes.1 ends
          refine ((entry.append gives_comma).append (ih quotable.2 writes.2)).imp ?_
          rintro tokens ⟨_, behind, rfl, ⟨used, _, rfl, ⟨tree, element, low, means⟩, comma, rfl,
            is⟩, trees, follow, lowOthers, meansOthers⟩
          have elements := Grammar.Elements.more element (.comma is .nil) follow
          rw [List.append_assoc]
          refine ⟨tree :: trees, elements, ?_, .cons means rfl meansOthers⟩
          rw [Tree.highest_cons]
          omega

theorem gives_object {fields : List (String × Expression)}
    (distinct : (fields.map Prod.fst).Nodup) (quotable : ∀ entry ∈ fields, IsQuotable entry.1)
    (writes : ∀ entry ∈ fields, Writes (expression entry.2) depth levels entry.2) :
    Gives (expression (.object fields)) (SpellsTerm depth (levels + 1) (.object fields)) rest := by
  rw [expression]
  have opening : ∀ rest, Gives "\x7b" (Only .leftBrace) rest :=
    fun rest => gives_mark rfl rfl fun _ _ => ⟨rfl, nofun⟩
  have inner : Gives _ (SpellsEntries depth levels fields) ('}' :: rest) :=
    gives_entries quotable writes (breaks_cons (by decide))
  have closing : Gives "\x7d" (Only .rightBrace) rest := gives_mark rfl rfl fun _ _ => ⟨rfl, nofun⟩
  refine (((opening _).append inner).append closing).imp ?_
  rintro tokens ⟨_, _, rfl, ⟨_, used, rfl, ⟨opening, rfl, opens⟩, trees, elements, low, means⟩,
    closing, rfl, closes⟩
  have object : Means (.node .object opening.place.line trees) _ := means_object means
  rw [Fields.ofList_of_nodup distinct] at object
  rw [List.append_assoc]
  refine spellsTerm_of_primary (.object opens .nil elements closes) ?_
    (means_term (.cons object rfl .nil))
  simp only [Grammar.newLines, List.nil_append, Tree.highest_cons, Tree.highest_nil,
    Tree.height_node, height] at low ⊢
  omega

end Pieces

/-! ### Expressions -/

theorem writes_of_term {depth levels : Nat} {text : String} {value : Expression}
    (gives : ∀ rest, Breaks rest → Gives text (SpellsTerm depth levels value) rest) :
    Writes text (depth + 1) levels value :=
  fun rest breaks => (gives rest breaks).imp fun _ spells => spells.spells

/-- The text of an expression is one. Each level of the expression takes at most two levels of the
grammar: one for itself, and one more for the right operand of an operator. -/
theorem writes_expression {levels : Nat} {value : Expression} (writable : IsExpression levels value)
    {depth : Nat} (enough : 2 * levels < depth) :
    Writes (expression value) depth levels value := by
  induction writable generalizing depth with
  | literal literal =>
      obtain ⟨depth, rfl⟩ := Nat.exists_eq_add_of_lt enough
      rw [expression]
      exact writes_of_term fun rest breaks => gives_scalar literal breaks
  | @identifier _ name named free =>
      obtain ⟨depth, rfl⟩ := Nat.exists_eq_add_of_lt enough
      have itself : ofName name = .identifier name := by
        rw [ofName, if_neg free.1, if_neg free.2.1, if_neg free.2.2]
      rw [expression, ← itself]
      exact writes_of_term fun rest breaks => gives_word named breaks
  | array _ ih =>
      obtain ⟨depth, rfl⟩ := Nat.exists_eq_add_of_lt enough
      exact writes_of_term fun rest _ => gives_array fun item member => ih item member (by omega)
  | object distinct quotable _ ih =>
      obtain ⟨depth, rfl⟩ := Nat.exists_eq_add_of_lt enough
      exact writes_of_term fun rest _ =>
        gives_object distinct quotable fun entry member => ih entry member (by omega)
  | call named _ ih =>
      obtain ⟨depth, rfl⟩ := Nat.exists_eq_add_of_lt enough
      exact writes_of_term fun rest _ =>
        gives_call named fun argument member => ih argument member (by omega)
  | getAttr _ named ih =>
      obtain ⟨depth, rfl⟩ := Nat.exists_eq_add_of_lt enough
      rw [expression]
      exact writes_of_term fun rest breaks => gives_step (ih (by omega)) (gives_attr named breaks.endsName)
  | getIndex _ literal ih =>
      obtain ⟨depth, rfl⟩ := Nat.exists_eq_add_of_lt enough
      rw [expression]
      exact writes_of_term fun rest _ => gives_step (ih (by omega)) (gives_index literal)
  | attrSplat _ ih =>
      obtain ⟨depth, rfl⟩ := Nat.exists_eq_add_of_lt enough
      rw [expression]
      exact writes_of_term fun rest _ => gives_step (ih (by omega)) gives_attrSplat
  | indexSplat _ ih =>
      obtain ⟨depth, rfl⟩ := Nat.exists_eq_add_of_lt enough
      rw [expression]
      exact writes_of_term fun rest _ => gives_step (ih (by omega)) gives_fullSplat
  | unary _ ih =>
      obtain ⟨depth, rfl⟩ := Nat.exists_eq_add_of_lt enough
      rw [expression]
      exact fun rest _ => gives_unary (ih (by omega))
  | binary _ _ before after =>
      obtain ⟨depth, rfl⟩ : ∃ inner, depth = inner + 2 := ⟨depth - 2, by omega⟩
      rw [expression]
      exact fun rest _ => gives_binary (before (by omega)) (after (by omega))

/-! ### Statements -/

section Statements

variable {depth levels : Nat} {rest : List Char}

/-- Tokens of labels, and what they stand for. -/
def SpellsLabels (heads : List Expression) (tokens : List Token) : Prop :=
  ∃ trees parts, Grammar.Labels tokens trees ∧ Tree.highest trees ≤ 2 ∧
    List.Forall₂ Part.Labels parts heads ∧
    ∀ {rest others}, MeanAll rest others → MeanAll (trees ++ rest) (parts ++ others)

theorem breaks_labels (heads : List Expression) :
    Breaks ((labels heads).toList ++ ' ' :: rest) := by
  cases heads with
  | nil => exact breaks_cons (by decide)
  | cons label heads =>
      rw [labels, String.toList_append, String.toList_append]
      exact breaks_cons (by decide)

theorem gives_label {label : Expression} (labelled : IsLabel label) (breaks : Breaks rest) :
    Gives (expression label) (fun tokens => ∃ token tree part, tokens = [token] ∧
      Grammar.Key token tree ∧ tree.height = 2 ∧ Means tree part ∧ part.isNewline = false ∧
      Part.Labels part label) rest := by
  cases labelled with
  | name named =>
      rw [expression]
      refine (gives_name named breaks.endsName).imp ?_
      rintro tokens ⟨token, rfl, is⟩
      exact ⟨token, _, _, rfl, .name is, Tree.height_production _ _, means_identifier is, rfl,
        .name⟩
  | string quotable =>
      rw [expression, scalar]
      refine (gives_quote quotable).imp ?_
      rintro tokens ⟨token, rfl, is⟩
      exact ⟨token, _, _, rfl, .string is, Tree.height_production _ _, means_string is, rfl,
        .string⟩

theorem gives_labels {heads : List Expression} (labelled : ∀ label ∈ heads, IsLabel label) :
    Gives (labels heads) (SpellsLabels heads) (' ' :: rest) := by
  induction heads with
  | nil =>
      refine gives_nothing.imp ?_
      rintro tokens rfl
      exact ⟨[], [], .none, Nat.zero_le _, .nil, fun rest => rest⟩
  | cons label heads ih =>
      rw [List.forall_mem_cons] at labelled
      rw [labels]
      refine ((gives_space.append (gives_label labelled.1 (breaks_labels heads))).append
        (ih labelled.2)).imp ?_
      rintro tokens ⟨_, others, rfl, ⟨_, _, rfl, rfl, token, tree, part, rfl, key, low, means,
        counts, label⟩, trees, parts, follow, lowOthers, labels, prefixed⟩
      refine ⟨tree :: trees, part :: parts, .more key follow, ?_, .cons label labels,
        fun rest => .cons means counts (prefixed rest)⟩
      rw [Tree.highest_cons]
      omega

/-- Tokens of a statement whose tree stands for it. -/
def SpellsStatement (depth levels : Nat) (value : Statement) (tokens : List Token) : Prop :=
  ∃ tree, Grammar.Stmt (Grammar.Expr depth) (Grammar.Block depth) tokens tree ∧
    tree.height ≤ height levels + 1 ∧ Means tree (.statement value)

/-- Tokens of statements with the ends of their lines, if they begin on a line of their own. -/
def SpellsLines (depth levels : Nat) (body : List Statement) (tokens : List Token) : Prop :=
  ∀ line : Token, line.kind = .newline → ∃ trees,
    Grammar.Follow (Grammar.Stmt (Grammar.Expr depth) (Grammar.Block depth)) (line :: tokens)
      trees ∧ Tree.highest trees ≤ height levels + 1 ∧ Hold trees body

theorem gives_lines {body : List Statement}
    (writes : ∀ value ∈ body, ∀ rest,
      Gives (statement value) (SpellsStatement depth levels value) ('\n' :: rest)) :
    Gives (statements body) (SpellsLines depth levels body) rest := by
  induction body with
  | nil =>
      rw [statements]
      refine gives_nothing.imp ?_
      rintro tokens rfl line newline
      have newlines : Grammar.Newlines [line] := List.forall_mem_singleton.mpr newline
      have low := Tree.highest_newLines [line]
      refine ⟨_, .none newlines, ?_, .newLines_only newlines, fun _ => rfl⟩
      rw [height]
      omega
  | cons first body ih =>
      rw [List.forall_mem_cons] at writes
      rw [statements]
      refine (((writes.1 _).append gives_newline).append (ih writes.2)).imp ?_
      rintro tokens ⟨_, others, rfl, ⟨used, _, rfl, ⟨tree, stmt, low, means⟩, next, rfl, is⟩,
        lines⟩ line newline
      obtain ⟨trees, follow, lowOthers, inner, _⟩ := lines next is
      have newlines : Grammar.Newlines [line] := List.forall_mem_singleton.mpr newline
      have lowLine := Tree.highest_newLines [line]
      have stated := Grammar.Stmt.stated (Grammar.Block.stated depth) stmt
      have more := Grammar.Follow.more (List.cons_ne_nil line []) newlines stmt follow
      rw [List.append_assoc]
      refine ⟨_, more, ?_, .newLines newlines (.cons means rfl inner), by simp [stated]⟩
      simp only [Tree.highest_append, Tree.highest_cons, height] at low lowOthers ⊢
      omega

theorem gives_opening : Gives " \x7b\n" (fun tokens => ∃ opening line, tokens = [opening, line] ∧
    opening.kind = .leftBrace ∧ line.kind = .newline) rest := by
  have brace : Gives "\x7b" (Only .leftBrace) ("\n".toList ++ rest) :=
    gives_mark rfl rfl fun _ _ => ⟨rfl, nofun⟩
  refine ((gives_space.append brace).append gives_newline).imp ?_
  rintro tokens ⟨_, _, rfl, ⟨_, _, rfl, rfl, opening, rfl, opens⟩, line, rfl, newline⟩
  exact ⟨opening, line, rfl, opens, newline⟩

/-- The text of a statement is one. Each block takes one level of the grammar. -/
theorem gives_statement {value : Statement} (writable : IsStatement levels value)
    (enough : 2 * levels < depth) (rest : List Char) :
    Gives (statement value) (SpellsStatement depth levels value) ('\n' :: rest) := by
  induction writable generalizing depth rest with
  | @assign levels key value named inner =>
      have ends : Breaks (" = ".toList ++ ((expression value).toList ++ '\n' :: rest)) :=
        breaks_cons (by decide)
      have writes := writes_expression inner enough ('\n' :: rest) (breaks_cons (by decide))
      rw [statement]
      refine (((gives_name named ends.endsName).append gives_assign).append writes).imp ?_
      rintro tokens ⟨_, used, rfl, ⟨_, _, rfl, ⟨key, rfl, is⟩, sign, rfl, assigns⟩, tree, expr,
        low, means⟩
      refine ⟨_, .attr is assigns expr, ?_, means_attr is means⟩
      simp only [Tree.height_node, Tree.highest_cons, Tree.highest_nil, Tree.height_production,
        height] at low ⊢
      omega
  | @block levels name heads body named labelled _ ih =>
      obtain ⟨depth, rfl⟩ : ∃ inner, depth = inner + 1 := ⟨depth - 1, by omega⟩
      have inner : Gives (statements body) (SpellsLines depth levels body) ('}' :: '\n' :: rest) :=
        gives_lines fun value member => ih value member (by omega)
      have closing : Gives "\x7d" (Only .rightBrace) ('\n' :: rest) :=
        gives_mark rfl rfl fun _ _ => ⟨rfl, nofun⟩
      rw [statement]
      refine (((((gives_name named (breaks_labels heads).endsName).append (gives_labels labelled)).append
        gives_opening).append inner).append closing).imp ?_
      rintro tokens ⟨_, _, rfl, ⟨_, others, rfl, ⟨_, _, rfl, ⟨_, used, rfl, ⟨title, rfl, is⟩,
        labelTrees, parts, labels, lowLabels, named, prefixed⟩, opening, line, rfl, opens, newline⟩,
        lines⟩, closing, rfl, closes⟩
      obtain ⟨trees, follow, low, holds⟩ := lines line newline
      have block : Grammar.Block (depth + 1) _ _ := .mk is labels opens follow.body closes
      have lowBody := Tree.highest_body_le (Grammar.line (line :: others)) trees
      simp only [List.append_assoc, List.cons_append, List.nil_append] at block ⊢
      refine ⟨_, .block block, ?_, means_block (means_identifier is) named prefixed holds⟩
      simp only [Tree.height_node, Tree.highest_cons, Tree.highest_append, Tree.height_production,
        height] at low ⊢
      omega

/-! ### Documents -/

theorem gives_document {body : List Statement} (writable : ∀ value ∈ body, IsStatement levels value)
    (enough : 2 * levels < depth) :
    Gives (statements body) (fun tokens => ∃ trees, Grammar.Document depth tokens trees ∧
      Tree.highest trees ≤ height levels + 1 ∧ Hold trees body) rest := by
  cases body with
  | nil =>
      refine gives_nothing.imp ?_
      rintro tokens rfl
      exact ⟨[], .blank .nil, Nat.zero_le _, .nil, fun _ => rfl⟩
  | cons first body =>
      rw [List.forall_mem_cons] at writable
      have lines : Gives (statements body) (SpellsLines depth levels body) rest :=
        gives_lines fun value member => gives_statement (writable.2 value member) enough
      rw [statements]
      refine (((gives_statement writable.1 enough _).append gives_newline).append lines).imp ?_
      rintro tokens ⟨_, others, rfl, ⟨used, _, rfl, ⟨tree, stmt, low, means⟩, next, rfl, is⟩,
        lines⟩
      obtain ⟨trees, follow, lowOthers, inner, _⟩ := lines next is
      have stated := Grammar.Stmt.stated (Grammar.Block.stated depth) stmt
      rw [List.append_assoc]
      refine ⟨_, .of_item stmt follow, ?_, .cons means rfl inner, by simp [stated]⟩
      rw [Tree.highest_cons]
      omega

end Statements

theorem run_of_gives {text : String} {Phrase : List Token → Prop} (gives : Gives text Phrase []) :
    ∃ tokens last, Phrase tokens ∧ last.kind = .eof ∧
      Token.ofText text = .ok (tokens ++ [last]) := by
  obtain ⟨after, follow, tokens, phrase, scans⟩ := gives false .start
  rw [List.append_nil, run] at scans
  refine ⟨tokens, ⟨.eof, follow⟩, phrase, rfl, ?_⟩
  simp only [Token.ofText, scans, Result.prepend, List.isEmpty_nil, ↓reduceIte]

/-- Every document that can be written is what its text is read as. -/
theorem parse_document {document : Document} (writable : IsDocument document) :
    Document.parse (Source.document document) = .ok document := by
  have deep : 2 * 60 < Tree.maxNesting := by decide
  obtain ⟨tokens, last, ⟨trees, body, low, holds⟩, ends, scanned⟩ :=
    run_of_gives (gives_document writable deep)
  have lowWhole : (Grammar.document (Grammar.line (tokens ++ [last])) trees).height ≤
      Tree.maxTermHeight := by
    have bound := Tree.height_document_le (Grammar.line (tokens ++ [last])) trees
    rw [height] at low
    rw [Tree.maxTermHeight]
    omega
  unfold Document.parse Source.document
  rw [scanned]
  change ((Tree.ofTokens (tokens ++ [last])).mapError _ >>= fun tree => _) = _
  rw [Tree.ofTokens_takes body ends lowWhole]
  change (Document.ofTree _).mapError _ = _
  rw [Document.ofTree, means_document holds]
  rfl

/-- Names, labels, escapes, an object, an operation and a step are all read back. -/
theorem parse_document_nested :
    Document.parse
        "a = (1) + ((x).y)\nb true \"\\$q\" \x7b\nc = \x7b\"k\\n\" = [null]\x7d\n\x7d\n" =
      .ok ⟨[.assign "a" (.binary .add (.literal (.int 1)) (.getAttr (.identifier "x") "y")),
        .block "b" [.identifier "true", .literal (.string "$q")]
          [.assign "c" (.object [("k\n", .array [.literal .null])])]]⟩ := by
  have value : IsExpression 60
      (.binary .add (.literal (.int 1)) (.getAttr (.identifier "x") "y")) :=
    .binary (.literal (.int (by decide)))
      (.getAttr (.identifier (by decide) (by decide)) (by decide))
  have object : IsExpression 59 (.object [("k\n", .array [.literal .null])]) := by
    refine .object (by decide) (by decide) (List.forall_mem_singleton.mpr (.array ?_))
    exact List.forall_mem_singleton.mpr (.literal .null)
  have block : IsStatement 60 (.block "b" [.identifier "true", .literal (.string "$q")]
      [.assign "c" (.object [("k\n", .array [.literal .null])])]) := by
    refine .block (by decide) ?_ (List.forall_mem_singleton.mpr (.assign (by decide) object))
    exact List.forall_mem_cons.mpr
      ⟨.name (by decide), List.forall_mem_singleton.mpr (.string (by decide))⟩
  have writable : IsDocument ⟨[.assign "a" _, .block "b" _ _]⟩ :=
    List.forall_mem_cons.mpr ⟨.assign (by decide) value, List.forall_mem_singleton.mpr block⟩
  exact (congrArg Document.parse (by decide)).trans (parse_document writable)

end Source

end ConfigLang
