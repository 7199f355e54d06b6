import ConfigLang.Proofs.FaultOrder
import ConfigLang.Proofs.Tracking
/-!
Every run of the grammar comes to an end inside of its tokens. Each procedure of the parser with a
cursor does what its reader does; so the cursor never leaves the list, a procedure that succeeds
moves it forward, and each leaves the nesting as it found it. A clock that lasts for the tokens and
for the nesting is never spent.
-/

set_option autoImplicit false

namespace ConfigLang

/-! ### What readers leave -/

/-- The tokens that a reader leaves, whether it fails or not. -/
def Reply.left {α : Type} : Reply α → List Token
  | .done _ rest => rest
  | .failed _ rest => rest

namespace Reader

variable {α β : Type}

theorem left_suffix {reader : Reader α} (reporting : Reporting reader)
    (stop : Position) (tokens : List Token) : (reader stop tokens).left <:+ tokens := by
  have reports := reporting stop tokens
  generalize reader stop tokens = reply at reports
  cases reports with
  | done suffix => exact suffix
  | failed suffix _ leaves => exact leaves.trans suffix

theorem left_bind_suffix {first : Reader α} {next : α → Reader β}
    (behind : ∀ value, Reporting (next value)) (stop : Position) (tokens : List Token) :
    ((first >>= next) stop tokens).left <:+ (first stop tokens).left := by
  cases read : first stop tokens with
  | done value rest =>
      rw [bind_of_done read]
      exact left_suffix (behind value) stop rest
  | failed fault rest =>
      rw [bind_of_failed read]
      exact List.suffix_refl _

theorem left_identifier (stop : Position) (tokens : List Token) :
    (identifier stop tokens).left = tokens.tail := by
  cases tokens with
  | nil => rfl
  | cons token others =>
      unfold identifier
      rw [advance_bind_cons]
      cases token.kind with
      | _ => rfl

/-- What begins by taking a name takes the token ahead, also where it is none. -/
theorem left_named_suffix {next : Tree → Reader β}
    (behind : ∀ name, Reporting (next name)) (stop : Position) (tokens : List Token) :
    ((identifier >>= next) stop tokens).left <:+ tokens.tail := by
  rw [← left_identifier stop tokens]
  exact left_bind_suffix behind stop tokens

end Reader

namespace Tree

open Reader

section Statements

variable {expression block : Reader Tree}

theorem left_attr_suffix (value : Reporting expression) (stop : Position)
    (tokens : List Token) : (attr expression stop tokens).left <:+ tokens.tail := by
  unfold attr
  rw [peek_bind]
  refine left_named_suffix (fun name => ?_) stop tokens
  exact .bind (.expect _) fun _ => .bind value fun _ => .pure _

theorem left_labelledBlock_suffix (value : Reporting expression)
    (nested : Reporting block) (stop : Position) (tokens : List Token) :
    (labelledBlock expression block stop tokens).left <:+ tokens.tail := by
  have titled : Reporting labels := fun _ _ => .done (List.dropWhile_suffix _)
  unfold labelledBlock
  rw [peek_bind]
  refine left_named_suffix (fun name => .bind titled fun labels => ?_) stop tokens
  refine .bind (.expect _) fun _ => .bind .peek fun inside => ?_
  refine .bind (.repeating (blockItems_reporting value nested)) fun items => ?_
  exact .bind (.expect _) fun _ => .pure _

/-- A statement begins with a name, so that a faulty one takes a token, too. -/
theorem left_statement_suffix (value : Reporting expression) {closing : Option Kind}
    {stop : Position} {tokens : List Token} (nested : (block stop tokens).left <:+ tokens.tail) :
    (statement expression block closing stop tokens).left <:+ tokens.tail := by
  unfold statement
  refine (left_bind_suffix (fun tree => ?_) stop tokens).trans ?_
  · exact .bind .peek fun ahead => .ite (.pure tree) (.failWith _)
  · unfold clause
    rw [peekSecond_bind]
    split
    · exact left_attr_suffix value stop tokens
    · exact nested

end Statements

end Tree

namespace Parser

namespace Scene

variable {scene : Scene} {rest : List Token} {state : State}

/-! ### Expressions -/

/-- What is known of the expressions inside of another: the parser tracks the reader, and that reads
phrases that begin as expressions do. -/
structure Inner (scene : Scene) (value : Parser Tree) (expression : Reader Tree)
    (Value : Grammar.Phrase) : Prop where
  tracks : ∀ rest, Tracks scene value expression rest
  sound : Tree.Reads expression Value
  opens : Grammar.Opens Value

section Expressions

variable {Value : Grammar.Phrase} {value : Parser Tree} {expression : Reader Tree} {clock : Nat}

theorem tupleItems_tracks (inner : Inner scene value expression Value)
    (enough : scene.before.length + 1 < clock) :
    Tracks scene (tupleItems value clock) (Reader.repeating (Tree.tupleItems expression)) rest := by
  refine .loop enough fun clock _ bound rest time again => ?_
  refine .bind (newLines_tracks time) fun lead left before => ?_
  have atMost := Reader.newLines_length before
  refine .sees_bind (.ite (fun _ => .pure lead) fun _ => ?_)
  refine .bind (inner.tracks _) fun _ behind item => ?_
  have taken := Tree.length_lt_of_reads inner.sound inner.opens.ne_nil item
  refine .bind (newLines_tracks (by omega)) fun trail after between => ?_
  have trailing := Reader.newLines_length between
  refine .bind (.accept _) fun comma last accepted => ?_
  have separated := Reader.accept_length (by decide) accepted
  refine .ite (fun _ => ?_) fun _ => .pure _
  exact .bind (again last (by omega)) fun _ _ _ => .pure _

theorem tuple_tracks (inner : Inner scene value expression Value)
    (enough : scene.before.length + 1 < clock) :
    Tracks scene (tuple clock value) (Tree.tuple expression) rest := by
  refine .recorded ?_ fun _ _ _ =>
    Tree.length_lt_of_reads (Tree.tuple_reads inner.sound) Grammar.Primary.ne_nil
  unfold Tree.tuple
  refine .bind (.expect _) fun opening _ _ => ?_
  refine .bind (tupleItems_tracks inner enough) fun items _ _ => ?_
  exact .bind (.expect _) fun _ _ _ => .pure _

theorem objectKey_tracks :
    Tracks scene (objectKey (Reader.ahead scene.stop rest).kind)
      (Tree.objectKey (Reader.ahead scene.stop rest).kind) rest := by
  cases rest with
  | nil => exact .failWith _
  | cons token others =>
      rw [Reader.ahead_cons]
      cases token.kind with
      | ident => exact identifier_tracks
      | string => exact recorded_single .string .string token
      | _ => exact .failWith _

theorem objectAssignment_tracks : Tracks scene objectAssignment Tree.objectAssignment rest := by
  unfold Parser.objectAssignment Tree.objectAssignment
  refine .peek_bind (.ite (fun _ => ?_) fun _ => .failWith _)
  exact .bind .advance fun _ _ _ => .pure _

theorem element_ne_nil {used : List Token} {tree : Tree}
    (element : Grammar.Element Value used tree) : used ≠ [] := by
  obtain ⟨⟩ := element
  exact List.cons_ne_nil _ _

theorem objectElement_tracks (inner : Inner scene value expression Value) :
    Tracks scene (objectElement value) (Tree.objectElement expression) rest := by
  refine .recorded ?_ fun _ _ _ =>
    Tree.length_lt_of_reads (Tree.objectElement_reads inner.sound) element_ne_nil
  unfold Tree.objectElement
  refine .peek_bind (.bind objectKey_tracks fun key _ _ => ?_)
  refine .bind objectAssignment_tracks fun _ _ _ => ?_
  exact .bind (inner.tracks _) fun _ _ _ => .pure _

theorem objectItems_tracks (inner : Inner scene value expression Value)
    (enough : scene.before.length + 1 < clock) :
    Tracks scene (objectItems value clock) (Reader.repeating (Tree.objectItems expression))
      rest := by
  refine .loop enough fun clock _ bound rest time again => ?_
  rw [Tree.objectItems]
  refine .peek_bind (.ite (fun _ => .pure []) fun _ => ?_)
  refine .bind (objectElement_tracks inner) fun element left item => ?_
  have taken :=
    Tree.length_lt_of_reads (Tree.objectElement_reads inner.sound) element_ne_nil item
  refine .bind (.accept _) fun comma after accepted => ?_
  have separated := Reader.accept_length (by decide) accepted
  refine .bind (newLines_tracks (by omega)) fun lines last between => ?_
  have trailing := Reader.newLines_length between
  refine .ite (fun _ => ?_) fun _ => .pure _
  exact .bind (again last (by omega)) fun _ _ _ => .pure _

theorem object_tracks (inner : Inner scene value expression Value)
    (enough : scene.before.length + 1 < clock) :
    Tracks scene (object clock value) (Tree.object expression) rest := by
  refine .recorded ?_ fun _ _ _ =>
    Tree.length_lt_of_reads (Tree.object_reads inner.sound) Grammar.Primary.ne_nil
  unfold Tree.object
  refine .bind (.expect _) fun opening _ _ => .bind (newLines_within enough) fun lead _ _ => ?_
  refine .bind (objectItems_tracks inner enough) fun items _ _ => ?_
  exact .bind (.expect _) fun _ _ _ => .pure _

theorem callItems_tracks (inner : Inner scene value expression Value)
    (enough : scene.before.length + 1 < clock) :
    Tracks scene (callItems value clock) (Reader.repeating (Tree.callItems expression)) rest := by
  refine .loop enough fun clock _ bound rest time again => ?_
  refine .bind (inner.tracks _) fun _ left item => ?_
  have taken := Tree.length_lt_of_reads inner.sound inner.opens.ne_nil item
  refine .bind (newLines_tracks (by omega)) fun trail after between => ?_
  have trailing := Reader.newLines_length between
  refine .bind (.accept _) fun comma behind accepted => ?_
  have separated := Reader.accept_length (by decide) accepted
  refine .ite (fun _ => ?_) fun _ => .pure _
  refine .bind (newLines_tracks (by omega)) fun lead last before => ?_
  have leading := Reader.newLines_length before
  refine .sees_bind (.ite (fun _ => .pure _) fun _ => ?_)
  exact .bind (again last (by omega)) fun _ _ _ => .pure _

theorem callArguments_tracks (inner : Inner scene value expression Value)
    (enough : scene.before.length + 1 < clock) :
    Tracks scene (callArguments clock value) (Tree.callArguments expression) rest := by
  unfold Parser.callArguments Tree.callArguments
  refine .peek_bind (.ite (fun _ => .pure []) fun _ => ?_)
  exact .bind (callItems_tracks inner enough) fun _ _ _ => .pure _

theorem call_tracks (inner : Inner scene value expression Value)
    (enough : scene.before.length + 1 < clock) :
    Tracks scene (call clock value) (Tree.call expression) rest := by
  refine .recorded ?_ fun _ _ _ =>
    Tree.length_lt_of_reads (Tree.call_reads inner.sound inner.opens) Grammar.Primary.ne_nil
  unfold Tree.call
  refine .peek_bind (.bind identifier_tracks fun name _ _ => .bind (.expect _) fun _ _ _ => ?_)
  refine .bind (newLines_within enough) fun lead _ _ => ?_
  refine .bind (callArguments_tracks inner enough) fun arguments _ _ => ?_
  exact .bind (.expect _) fun _ _ _ => .pure _

theorem grouped_tracks (inner : Inner scene value expression Value)
    (enough : scene.before.length + 1 < clock) :
    Tracks scene (grouped clock value) (Tree.grouped expression) rest := by
  unfold Parser.grouped Tree.grouped
  refine .bind .advance fun _ _ _ => .bind (newLines_within enough) fun lead _ _ => ?_
  refine .bind (inner.tracks _) fun value _ _ => .bind (newLines_within enough) fun trail _ _ => ?_
  exact .bind (.expect _) fun _ _ _ => .pure _

theorem alone_tracks {parser : Parser Tree} {reader : Reader Tree}
    (tracks : Tracks scene parser reader rest) :
    Tracks scene (alone parser) (Tree.alone reader) rest :=
  .bind tracks fun _ _ _ => .pure _

theorem named_tracks (inner : Inner scene value expression Value)
    (enough : scene.before.length + 1 < clock) :
    Tracks scene (named clock value) (Tree.named expression) rest :=
  .nextIs_bind (by decide) (alone_tracks (call_tracks inner enough))
    (alone_tracks identifier_tracks)

theorem primaryItems_tracks (inner : Inner scene value expression Value)
    (enough : scene.before.length + 1 < clock) :
    Tracks scene (primaryItems clock value (Reader.ahead scene.stop rest).kind)
      (Tree.primaryItems expression (Reader.ahead scene.stop rest).kind) rest := by
  cases rest with
  | nil => exact .failWith _
  | cons token others =>
      rw [Reader.ahead_cons]
      cases token.kind with
      | int => exact alone_tracks (recorded_single .int .int token)
      | float => exact alone_tracks (.single .float)
      | string => exact alone_tracks (recorded_single .string .string token)
      | leftBracket => exact alone_tracks (tuple_tracks inner enough)
      | leftBrace => exact alone_tracks (object_tracks inner enough)
      | leftParen => exact grouped_tracks inner enough
      | ident => exact named_tracks inner enough
      | _ => exact .failWith _

theorem primary_tracks (inner : Inner scene value expression Value)
    (enough : scene.before.length + 1 < clock) :
    Tracks scene (primary clock value) (Tree.primary expression) rest := by
  refine .recorded ?_ fun _ _ _ => Tree.length_lt_of_reads
    (Tree.primary_reads inner.sound inner.opens) fun phrase => phrase.choose_spec.2.ne_nil
  unfold Tree.primary
  exact .peek_bind (.bind (primaryItems_tracks inner enough) fun _ _ _ => .pure _)

theorem member_tracks (line : Nat) :
    Tracks scene (member line (Reader.ahead scene.stop rest).kind)
      (Tree.member line (Reader.ahead scene.stop rest).kind) rest := by
  cases rest with
  | nil => exact .bind identifier_tracks fun _ _ _ => .pure _
  | cons token others =>
      rw [Reader.ahead_cons]
      cases token.kind with
      | star => exact .bind .advance fun _ _ _ => .pure _
      | int => exact .bind (recorded_single .int .int token) fun _ _ _ => .pure _
      | _ => exact .bind identifier_tracks fun _ _ _ => .pure _

theorem subscript_tracks (line : Nat) :
    Tracks scene (subscript line (Reader.ahead scene.stop rest).kind)
      (Tree.subscript line (Reader.ahead scene.stop rest).kind) rest := by
  cases rest with
  | nil => exact .failWith _
  | cons token others =>
      rw [Reader.ahead_cons]
      cases token.kind with
      | star => exact .bind .advance fun _ _ _ => .pure _
      | int => exact .bind (recorded_single .int .int token) fun _ _ _ => .pure _
      | string => exact .bind (recorded_single .string .string token) fun _ _ _ => .pure _
      | _ => exact .failWith _

theorem projection_tracks (kind : Kind) :
    Tracks scene (projection kind) (Tree.projection kind) rest := by
  refine .ite (fun _ => ?_) fun _ => ?_
  · unfold Parser.dotProjection Tree.dotProjection
    exact .bind .advance fun _ _ _ => .peek_bind (member_tracks _)
  · unfold Parser.bracketProjection Tree.bracketProjection
    refine .bind .advance fun _ _ _ => .peek_bind (.bind (subscript_tracks _) fun _ _ _ => ?_)
    exact .bind (.expect _) fun _ _ _ => .pure _

theorem projections_tracks (line : Nat) {height : Nat} {start : Tree} {bound : List Token}
    (enough : rest.length + 1 < clock) (longer : rest.length < bound.length) :
    Tracks scene (projections line clock height start) (Tree.projections line bound height start)
      rest := by
  induction clock generalizing rest height start bound with
  | zero => exact absurd enough (Nat.not_lt_zero _)
  | succ clock ih =>
      obtain ⟨_, bound, rfl⟩ := List.exists_cons_of_length_pos (Nat.zero_lt_of_lt longer)
      rw [List.length_cons] at longer
      rw [Tree.projections]
      refine .peek_bind (.ite (fun steps => ?_) fun _ => .pure start)
      refine .ite (fun _ => .tooDeep) fun _ => ?_
      refine .bind (projection_tracks _) fun step left taken => ?_
      have shorter := Tree.projection_length steps taken
      exact ih (by omega) (by omega)

theorem term_tracks (inner : Inner scene value expression Value)
    (enough : scene.before.length + 1 < clock) :
    Tracks scene (term clock value) (Tree.term expression) rest := by
  refine .recorded ?_ fun _ _ _ => Tree.length_lt_of_reads
    (Tree.term_reads inner.sound inner.opens) fun phrase => ?_
  · unfold Tree.term
    refine .peek_bind (.bind (primary_tracks inner enough) fun start _ _ => ?_)
    exact .repeating enough fun _ => projections_tracks _
  · obtain ⟨_, _, rfl, _⟩ := phrase.opens
    exact List.cons_ne_nil _ _

theorem operand_tracks (inner : Inner scene value expression Value)
    (enough : scene.before.length + 1 < clock) :
    Tracks scene (operand clock value) (Tree.operand expression) rest := by
  unfold Parser.operand Tree.operand
  refine .peek_bind (.ite (fun _ => ?_) fun _ => term_tracks inner enough)
  exact .bind .advance fun sign _ _ => .bind (term_tracks inner enough) fun _ _ _ => .pure _

theorem operation_tracks (inner : Inner scene value expression Value)
    (enough : scene.before.length + 1 < clock) :
    Tracks scene (operation clock value) (Tree.operation expression) rest := by
  refine .recorded ?_ fun _ _ _ => Tree.length_lt_of_reads
    (Tree.operation_reads inner.sound inner.opens) (Grammar.Operation.opens Value).ne_nil
  unfold Tree.operation
  refine .peek_bind (.bind (operand_tracks inner enough) fun left _ _ => ?_)
  refine .peek_bind (.ite (fun _ => ?_) fun _ => .pure left)
  refine .bind .advance fun sign _ _ => .bind (newLines_within enough) fun lines _ _ => ?_
  exact .bind (inner.tracks _) fun right _ _ => .pure _

end Expressions

/-- Each level of nesting takes one from the clock. -/
theorem expression_inner {depth clock : Nat} (level : scene.depth + depth = Tree.maxNesting)
    (enough : scene.before.length + 1 + depth < clock) :
    Inner scene (expression clock) (Tree.expression depth) (Grammar.Expr depth) := by
  induction depth generalizing scene clock with
  | zero =>
      obtain ⟨clock, rfl⟩ := Nat.exists_eq_add_one_of_ne_zero (Nat.ne_zero_of_lt enough)
      refine ⟨fun _ => .recorded ?_ fun _ _ _ read => ?_, Tree.expression_reads _,
        Grammar.Expr.opens _⟩
      · exact .nested_tooDeep (Nat.le_of_eq level.symm)
      · cases read
  | succ depth ih =>
      obtain ⟨clock, rfl⟩ := Nat.exists_eq_add_one_of_ne_zero (Nat.ne_zero_of_lt enough)
      have within : scene.deeper.before.length + 1 + depth < clock := Nat.lt_of_succ_lt_succ enough
      have inner := ih ((Nat.succ_add_eq_add_succ _ _).trans level) within
      refine ⟨fun _ => .recorded ?_ fun _ _ _ => ?_, Tree.expression_reads _,
        Grammar.Expr.opens _⟩
      · exact .nested (by omega) (operation_tracks inner (by omega))
      · exact Tree.length_lt_of_reads (Tree.expression_reads _) (Grammar.Expr.opens _).ne_nil

/-! ### Statements -/

/-- What is known of the blocks inside of another: the parser tracks the reader, and that reads
phrases that begin with a name. -/
structure InnerBlock (scene : Scene) (inside : Parser Tree) (block : Reader Tree)
    (Nested : Grammar.Phrase) : Prop where
  tracks : ∀ rest, Tracks scene inside block rest
  sound : Tree.Reads block Nested
  starts : Grammar.Named Nested

section Statements

variable {Value Nested : Grammar.Phrase} {value inside : Parser Tree}
  {expression block : Reader Tree} {clock : Nat} {closing : Option Kind}

theorem stmt_ne_nil (nested : InnerBlock scene inside block Nested) {used : List Token}
    {tree : Tree} (stmt : Grammar.Stmt Value Nested used tree) : used ≠ [] := by
  obtain ⟨_, _, _, rfl, _⟩ := Grammar.Stmt.named nested.starts stmt
  exact List.cons_ne_nil _ _

theorem attr_tracks (inner : Inner scene value expression Value)
    (nested : InnerBlock scene inside block Nested) :
    Tracks scene (attr value) (Tree.attr expression) rest := by
  refine .recorded ?_ fun _ _ _ =>
    Tree.length_lt_of_reads (Tree.attr_reads inner.sound) (stmt_ne_nil nested)
  unfold Tree.attr
  refine .peek_bind (.bind identifier_tracks fun key _ _ => .bind (.expect _) fun _ _ _ => ?_)
  exact .bind (inner.tracks _) fun _ _ _ => .pure _

theorem clause_tracks (inner : Inner scene value expression Value)
    (nested : InnerBlock scene inside block Nested) :
    Tracks scene (clause value inside) (Tree.clause expression block) rest :=
  .nextIs_bind (by decide) (attr_tracks inner nested) (nested.tracks _)

theorem statement_tracks (inner : Inner scene value expression Value)
    (nested : InnerBlock scene inside block Nested) :
    Tracks scene (statement value inside closing) (Tree.statement expression block closing)
      rest := by
  refine .recorded ?_ fun _ _ left read => ?_
  · unfold Tree.statement
    refine .bind (clause_tracks inner nested) fun tree _ _ => ?_
    exact .peek_bind (.ite (fun _ => .pure tree) fun _ => .failWith _)
  · obtain ⟨used, rfl, stmt, _⟩ := Tree.statement_done inner.sound nested.sound read
    have taken := List.length_pos_iff.mpr (stmt_ne_nil nested stmt)
    rw [List.length_append]
    omega

theorem labels_cons {stop : Position} {token : Token} {others : List Token} {tree : Tree}
    {reader : Reader Tree} (reads : reader stop (token :: others) = .done tree others)
    (labelled : Tree.label? token = some tree) :
    Tree.labels stop (token :: others) =
      (do
        let label ← reader
        let rest ← Tree.labels
        return label :: rest : Reader (List Tree)) stop (token :: others) := by
  rw [Reader.bind_of_done reads]
  unfold Tree.labels
  rw [List.takeWhile_cons_of_pos (by rw [labelled]; rfl),
    List.dropWhile_cons_of_pos (by rw [labelled]; rfl), List.filterMap_cons_some labelled]
  rfl

theorem labels_of_none {stop : Position} {token : Token} {others : List Token}
    (unlabelled : Tree.label? token = none) :
    Tree.labels stop (token :: others) = (pure [] : Reader (List Tree)) stop (token :: others) := by
  unfold Tree.labels
  rw [List.takeWhile_cons_of_neg (by rw [unlabelled]; exact Bool.false_ne_true),
    List.dropWhile_cons_of_neg (by rw [unlabelled]; exact Bool.false_ne_true)]
  rfl

theorem labels_tracks (enough : rest.length < clock) :
    Tracks scene (labels clock) Tree.labels rest := by
  induction clock generalizing rest with
  | zero => exact absurd enough (Nat.not_lt_zero _)
  | succ clock ih =>
      refine .peek_first ?_
      cases rest with
      | nil => exact .congr (.pure []) rfl
      | cons token others =>
          have next := ih (Nat.lt_of_succ_lt_succ enough)
          rw [Reader.ahead_cons]
          cases is : token.kind with
          | ident name =>
              have named : Reader.identifier scene.stop (token :: others) = _ :=
                Reader.identifier_of_kind is
              refine .congr (.bind identifier_tracks fun label left read => ?_)
                (labels_cons named (by rw [Tree.label?, is]; rfl))
              rw [named] at read
              cases read
              exact .bind next fun _ _ _ => .pure _
          | string contents =>
              refine .congr (.bind (recorded_single .string .string token) fun _ _ read => ?_)
                (labels_cons (Reader.single_cons .string token) (by rw [Tree.label?, is]; rfl))
              cases read
              exact .bind next fun _ _ _ => .pure _
          | _ => exact .congr (.pure []) (labels_of_none (by rw [Tree.label?, is]))

theorem item_eq (stop : Position) (tokens : List Token) :
    Tree.item expression block closing (Reader.ahead stop tokens).kind stop tokens =
      (do
        let lines ← Reader.newLines
        if lines.isEmpty then Tree.alone (Tree.statement expression block closing)
        else return lines : Reader (List Tree)) stop tokens := by
  obtain ⟨lines, left, rfl, newlines, past, runs⟩ := Reader.newLines_runs stop tokens
  rw [Reader.bind_of_done runs]
  cases lines with
  | nil =>
      have other : (Reader.ahead stop ([] ++ left)).kind ≠ .newline := by
        cases left with
        | nil => exact Kind.noConfusion
        | cons token others => exact past token rfl
      rw [Tree.item, if_neg other]
      rfl
  | cons line lines =>
      have feeds : (Reader.ahead stop (line :: lines ++ left)).kind = .newline :=
        newlines line List.mem_cons_self
      rw [Tree.item, if_pos feeds, runs]
      rfl

/-- Newlines are tried first, and are not there in front of a statement. -/
theorem item_tracks (enough : rest.length < clock) {parser : Parser Tree}
    (tracks : ∀ rest, Tracks scene parser (Tree.statement expression block closing) rest) :
    Tracks scene (item clock parser)
      (Tree.item expression block closing (Reader.ahead scene.stop rest).kind) rest := by
  refine .congr (.bind (newLines_tracks enough) fun lines left _ => ?_) (item_eq _ _)
  exact .ite (fun _ => alone_tracks (tracks left)) fun _ => .pure _

theorem blockItems_tracks (inner : Inner scene value expression Value)
    (nested : InnerBlock scene inside block Nested) (enough : scene.before.length + 1 < clock) :
    Tracks scene (blockItems (statement value inside (some .rightBrace)) clock)
      (Reader.repeating (Tree.blockItems expression block)) rest := by
  refine .loop enough fun clock _ bound rest time again => ?_
  rw [Tree.blockItems]
  refine .peek_bind (.ite (fun _ => .pure []) fun _ => ?_)
  refine .bind (item_tracks time fun _ => statement_tracks inner nested) fun trees left read => ?_
  have taken := Tree.item_length inner.sound nested.sound nested.starts read
  exact .bind (again left taken) fun _ _ _ => .pure _

theorem labelledBlock_tracks (inner : Inner scene value expression Value)
    (nested : InnerBlock scene inside block Nested) (enough : scene.before.length + 1 < clock) :
    Tracks scene (labelledBlock clock value inside) (Tree.labelledBlock expression block) rest := by
  refine .recorded ?_ fun _ _ _ => Tree.length_lt_of_reads
    (Tree.labelledBlock_reads inner.sound nested.sound nested.starts) fun phrase => ?_
  · unfold Tree.labelledBlock
    refine .peek_bind (.bind identifier_tracks fun name _ _ => ?_)
    refine .bind (.of_length_le fun atMost => labels_tracks (by omega)) fun labels _ _ => ?_
    refine .bind (.expect _) fun _ _ _ => .peek_bind ?_
    refine .bind (blockItems_tracks inner nested enough) fun items _ _ => ?_
    exact .bind (.expect _) fun _ _ _ => .pure _
  · obtain ⟨_, _, _, rfl, _⟩ := Grammar.Labelled.named _ phrase
    exact List.cons_ne_nil _ _

end Statements

theorem block_ne_nil {depth : Nat} {used : List Token} {tree : Tree}
    (block : Grammar.Block depth used tree) : used ≠ [] := by
  obtain ⟨_, _, _, rfl, _⟩ := Grammar.Block.named depth block
  exact List.cons_ne_nil _ _

theorem block_inner {depth clock : Nat} (level : scene.depth + depth = Tree.maxNesting)
    (enough : scene.before.length + 1 + depth < clock) :
    InnerBlock scene (block clock) (Tree.block depth) (Grammar.Block depth) := by
  induction depth generalizing scene clock with
  | zero =>
      obtain ⟨clock, rfl⟩ := Nat.exists_eq_add_one_of_ne_zero (Nat.ne_zero_of_lt enough)
      refine ⟨fun _ => .recorded ?_ fun _ _ _ read => ?_, Tree.block_reads _,
        Grammar.Block.named _⟩
      · exact .nested_tooDeep (Nat.le_of_eq level.symm)
      · cases read
  | succ depth ih =>
      obtain ⟨clock, rfl⟩ := Nat.exists_eq_add_one_of_ne_zero (Nat.ne_zero_of_lt enough)
      have deeper : scene.deeper.depth + depth = Tree.maxNesting :=
        (Nat.succ_add_eq_add_succ _ _).trans level
      have within : scene.deeper.before.length + 1 + depth < clock := Nat.lt_of_succ_lt_succ enough
      have inner := expression_inner deeper within
      refine ⟨fun _ => .recorded ?_ fun _ _ _ => ?_, Tree.block_reads _, Grammar.Block.named _⟩
      · exact .nested (by omega) (labelledBlock_tracks inner (ih deeper within) (by omega))
      · exact Tree.length_lt_of_reads (Tree.block_reads _) block_ne_nil

/-! ### Documents -/

theorem recover_cons (depth : Nat) (token : Token) (others : List Token) :
    Tree.recover depth (token :: others) =
      (opened depth token.kind).elim (token :: others) fun next => Tree.recover next others := by
  rw [Tree.recover]
  cases token.kind with
  | newline =>
      rw [opened]
      by_cases outside : depth = 0
      · rw [if_pos outside, if_pos outside]
        rfl
      · rw [if_neg outside, if_neg outside]
        rfl
  | _ => rfl

/-- Skipping as a reader, which never fails. -/
def skip (depth : Nat) : Reader Unit :=
  fun _ tokens => .done () (Tree.recover depth tokens)

theorem recover_tracks {clock depth : Nat} (enough : rest.length < clock) :
    Tracks scene (recover clock depth) (skip depth) rest := by
  induction clock generalizing rest depth with
  | zero => exact absurd enough (Nat.not_lt_zero _)
  | succ clock ih =>
      refine .peek_first ?_
      cases rest with
      | nil => exact .congr (.pure ()) rfl
      | cons token others =>
          rw [Reader.ahead_cons]
          cases goes : opened depth token.kind with
          | none =>
              have stays : Tree.recover depth (token :: others) = token :: others := by
                rw [recover_cons, goes]
                rfl
              exact .congr (.pure ()) (congrArg (Reply.done ()) stays)
          | some next =>
              have skips : Tree.recover depth (token :: others) = Tree.recover next others := by
                rw [recover_cons, goes]
                rfl
              have same : skip depth scene.stop (token :: others) =
                  (Reader.advance >>= fun _ => skip next) scene.stop (token :: others) :=
                congrArg (Reply.done ()) skips
              refine .congr (.bind .advance fun _ _ read => ?_) same
              cases read
              exact ih (Nat.lt_of_succ_lt_succ enough)

/-- A reader after which reading goes on also where it fails, behind what is skipped then. -/
def mended (reader : Reader Tree) : Reader (Except Fault Tree) :=
  fun stop tokens =>
    match reader stop tokens with
    | .done tree rest => .done (.ok tree) rest
    | .failed fault rest => .done (.error fault) (Tree.recover 0 rest)

theorem blame_tracks {clock : Nat} (fault : Fault) (enough : rest.length < clock) :
    Tracks scene (recover clock 0 >>= fun _ => pure (.error fault) : Parser (Except Fault Tree))
      (skip 0 >>= fun _ => pure (.error fault)) rest :=
  .bind (recover_tracks enough) fun _ _ _ => .pure _

theorem recovering_tracks {parser : Parser Tree} {reader : Reader Tree} {clock : Nat}
    (tracks : Tracks scene parser reader rest)
    (enough : (reader scene.stop rest).left.length < clock) :
    Tracks scene (recovering clock parser) (mended reader) rest := by
  intro state stands
  have reached := tracks stands
  change Mirrors scene (Parser.bind (attempt parser) _ scene.tokens state) _
  unfold Parser.bind attempt mended
  generalize parser scene.tokens state = ending at reached
  generalize reader scene.stop rest = reply at reached enough
  cases reached with
  | done exits => exact .done exits
  | failed exits => exact blame_tracks _ enough exits

/-- What a parser is done with where the reader is. -/
theorem Tracks.exists_done {α : Type} {parser : Parser α} {reader : Reader α} {value : α}
    {left : List Token} (tracks : Tracks scene parser reader rest)
    (stands : scene.Stands rest state) (read : reader scene.stop rest = .done value left) :
    ∃ exit, parser scene.tokens state = .done value exit ∧ scene.Stands left exit := by
  have reached := tracks stands
  rw [read] at reached
  generalize parser scene.tokens state = ending at reached
  cases reached with
  | done exits => exact ⟨_, rfl, exits⟩

/-- The reader of a statement outside of all blocks. -/
def outermost : Reader Tree :=
  Tree.statement (Tree.expression Tree.maxNesting) (Tree.block Tree.maxNesting) none

theorem left_outermost_suffix (stop : Position) (tokens : List Token) :
    (outermost stop tokens).left <:+ tokens.tail := by
  have value := Tree.expression_reporting
  exact Tree.left_statement_suffix (value _)
    (Tree.left_labelledBlock_suffix (value _) (Tree.block_reporting _) stop tokens)

theorem exists_mended (stop : Position) (tokens : List Token) :
    ∃ result rest, mended outermost stop tokens = .done result rest ∧ rest <:+ tokens.tail := by
  have taken := left_outermost_suffix stop tokens
  unfold mended
  generalize outermost stop tokens = reply at taken
  cases reply with
  | done tree rest => exact ⟨_, rest, rfl, taken⟩
  | failed fault rest => exact ⟨_, _, rfl, (Tree.recover_suffix 0 rest).trans taken⟩

section Items

variable {stop : Position} {token bounds : Token} {others left bound : List Token}

theorem items_of_newlines {trees : List Tree} (feeds : token.kind = .newline)
    (read : Reader.newLines stop (token :: others) = .done trees left) :
    Tree.items stop (bounds :: bound) (token :: others) =
      (Tree.items stop bound left).add trees := by
  have inside : token.kind ≠ .eof := by
    rw [feeds]
    decide
  rw [Tree.items, if_neg inside, Tree.item, if_pos feeds, read]

theorem items_of_statement {result : Except Fault Tree} (inside : token.kind ≠ .eof)
    (other : token.kind ≠ .newline)
    (read : mended outermost stop (token :: others) = .done result left) :
    Tree.items stop (bounds :: bound) (token :: others) =
      put result (Tree.items stop bound left) := by
  rw [Tree.items, if_neg inside, Tree.item, if_neg other, Tree.alone]
  unfold mended outermost at read
  generalize Tree.statement _ _ none = reader at read ⊢
  cases replies : reader stop (token :: others) with
  | done tree rest =>
      rw [replies] at read
      cases read
      rw [Reader.bind_of_done replies]
      rfl
  | failed fault rest =>
      rw [replies] at read
      cases read
      rw [Reader.bind_of_failed replies]
      rfl

end Items

/-- The check for a cursor that has not moved is never needed. -/
theorem unstick_of_ne {before : Nat} {tokens : List Token} (moved : state.position ≠ before) :
    unstick before tokens state = .done () state := by
  have stands : position tokens state = .done state.position state := rfl
  rw [unstick, bind_of_done stands, if_neg moved]
  rfl

/-- One round takes a token, and adds what the item that begins there adds. -/
theorem round_run {parser : Parser Tree} (tracks : ∀ rest, Tracks scene parser outermost rest)
    {clock : Nat} {token : Token} {others : List Token} (inside : token.kind ≠ .eof)
    (enough : (token :: others).length < clock) (stands : scene.Stands (token :: others) state) :
    ∃ add left exit, round clock parser scene.tokens state = .done add exit ∧
      scene.Stands left exit ∧ left.length ≤ others.length ∧ ∀ bounds bound,
        Tree.items scene.stop (bounds :: bound) (token :: others) =
          add (Tree.items scene.stop bound left) := by
  have here : position scene.tokens state = .done state.position state := rfl
  obtain ⟨lines, left, whole, newlines, past, runs⟩ :=
    Reader.newLines_runs scene.stop (token :: others)
  obtain ⟨between, skipped, waits⟩ := (newLines_tracks enough).exists_done stands runs
  rw [round, bind_of_done here, bind_of_done skipped]
  cases lines with
  | nil =>
      obtain rfl : token :: others = left := whole
      have empty : (Grammar.newLines []).isEmpty = true := rfl
      obtain ⟨result, left, read, suffix⟩ := exists_mended scene.stop (token :: others)
      have taken := (left_outermost_suffix scene.stop (token :: others)).length_le
      have shorter := suffix.length_le
      rw [List.tail_cons] at taken shorter
      obtain ⟨exit, ran, leaves⟩ := (recovering_tracks (tracks _)
        (Nat.lt_of_le_of_lt taken (Nat.lt_of_succ_lt enough))).exists_done waits read
      -- A fault takes a token as well as a statement does, so that the cursor never has to be pushed.
      have moved : exit.position ≠ state.position := by
        have first := stands.length
        have last := leaves.length
        rw [List.length_cons] at first
        omega
      rw [if_pos empty, bind_of_done ran, bind_of_done (unstick_of_ne moved)]
      exact ⟨_, left, exit, rfl, leaves, shorter, fun _ _ =>
        items_of_statement inside (past token rfl) read⟩
  | cons line lines =>
      have full : ¬(Grammar.newLines (line :: lines)).isEmpty = true := Bool.false_ne_true
      obtain ⟨rfl, rfl⟩ : token = line ∧ others = lines ++ left := List.cons.inj whole
      rw [if_neg full]
      refine ⟨_, left, between, rfl, waits, ?_, fun _ _ =>
        items_of_newlines (newlines token List.mem_cons_self) runs⟩
      rw [List.length_append]
      exact Nat.le_add_left _ _

theorem items_run {parser : Parser Tree} (tracks : ∀ rest, Tracks scene parser outermost rest)
    {clock : Nat} {bound : List Token} (enough : rest.length + 1 < clock)
    (longer : rest.length ≤ bound.length) (stands : scene.Stands rest state) :
    ∃ left exit, items parser clock scene.tokens state =
      .done (Tree.items scene.stop bound rest) exit ∧ scene.Stands left exit := by
  induction clock generalizing rest bound state with
  | zero => exact absurd enough (Nat.not_lt_zero _)
  | succ clock ih =>
      rw [items, bind_of_done stands.peek]
      cases rest with
      | nil =>
          refine ⟨[], state, ?_, stands⟩
          cases bound with
          | _ => rfl
      | cons token others =>
          obtain ⟨_, bound, rfl⟩ :=
            List.exists_cons_of_length_pos (Nat.lt_of_lt_of_le (Nat.succ_pos _) longer)
          rw [Reader.ahead_cons]
          by_cases ends : token.kind = .eof
          · refine ⟨_, state, ?_, stands⟩
            rw [if_pos ends, Tree.items, if_pos ends]
            rfl
          · obtain ⟨add, left, exit, ran, leaves, shorter, same⟩ :=
              round_run tracks ends (Nat.lt_of_succ_lt_succ enough) stands
            have within : left.length ≤ bound.length :=
              Nat.le_trans shorter (Nat.le_of_succ_le_succ longer)
            rw [List.length_cons] at enough
            obtain ⟨last, final, goes, stays⟩ := ih (by omega) within leaves
            rw [if_neg ends, bind_of_done ran, bind_of_done goes, same]
            exact ⟨last, final, rfl, stays⟩

/-! ### Runs -/

theorem Stands.document_run {clock : Nat} (stands : scene.Stands scene.before state)
    (outside : scene.depth = 0) (enough : scene.before.length + 1 + Tree.maxNesting < clock) :
    ∃ left exit, document clock scene.tokens state =
        .done (conclude (Reader.ahead scene.stop scene.before).place.line
          (Tree.items scene.stop scene.before scene.before)) exit ∧
      scene.Stands left exit := by
  have level : scene.depth + Tree.maxNesting = Tree.maxNesting := by
    rw [outside, Nat.zero_add]
  have reads (rest : List Token) : Tracks scene
      (statement (expression clock) (block clock) none) outermost rest :=
    statement_tracks (expression_inner level enough) (block_inner level enough)
  obtain ⟨left, exit, ran, leaves⟩ :=
    items_run reads (Nat.lt_of_le_of_lt (Nat.le_add_right _ _) enough) (Nat.le_refl _) stands
  rw [document, bind_of_done stands.peek, bind_of_done ran]
  exact ⟨left, exit, rfl, leaves⟩

end Scene

/-- The list that is read is that of the tokens before the end and the one end token. -/
theorem withEnd_eq (tokens : List Token) :
    withEnd tokens = (Tree.splitEnd tokens).1 ++ [⟨.eof, (Tree.splitEnd tokens).2⟩] := by
  unfold withEnd Tree.splitEnd
  cases found : tokens.getLast? with
  | none =>
      rw [List.getLast?_eq_none_iff.mp found]
      rfl
  | some last =>
      obtain ⟨before, rfl⟩ := List.getLast?_eq_some_iff.mp found
      by_cases ends : last.kind = .eof
      · have same : last = ⟨.eof, last.place⟩ := by
          rw [← ends]
        simp only [if_pos ends, List.dropLast_concat]
        rw [← same]
      · simp only [if_neg ends]

theorem length_withEnd_le (tokens : List Token) :
    (withEnd tokens).length ≤ tokens.length + 1 := by
  unfold withEnd
  split
  · exact Nat.le_add_left _ _
  · split
    · exact Nat.le_succ _
    · rw [List.length_append]
      exact Nat.le_refl _

/-- Whatever the tokens, the grammar comes to an end with the tree or the faults of the tokens. Its
cursor goes from token to token and never leaves the list. Each procedure that succeeds moves it
forward, unless it is the one that reads newlines, and each leaves the nesting as it found it,
whether it succeeds or fails. -/
theorem run_terminates (tokens : List Token) (extra : Nat) :
    ∃ exit, run (tokens.length + Tree.maxNesting + 2 + extra) tokens =
        .done (Tree.ofTokens tokens) exit ∧
      exit.position < (withEnd tokens).length ∧ exit.depth = 0 ∧
      exit.path.reverse = List.range' 1 exit.position ∧
      ∀ event ∈ exit.events, event.Sound (withEnd tokens).length := by
  let scene : Scene := ⟨(Tree.splitEnd tokens).1, (Tree.splitEnd tokens).2, 0⟩
  have whole : withEnd tokens = scene.tokens := withEnd_eq tokens
  have start : scene.Stands scene.before .start :=
    ⟨Nat.zero_le _, rfl, rfl, rfl, fun _ member => absurd member List.not_mem_nil⟩
  have shorter : scene.tokens.length ≤ tokens.length + 1 := whole ▸ length_withEnd_le tokens
  rw [Scene.length_tokens] at shorter
  obtain ⟨left, exit, ran, stands⟩ := start.document_run rfl
    (show _ < tokens.length + Tree.maxNesting + 2 + extra by omega)
  rw [run, whole, ran]
  exact ⟨exit, rfl, stands.lt_size, stands.depth, stands.path, stands.sound⟩

/-- A brace where a name should be is taken all the same, and the nesting is undone on the way
out. -/
example : run 131 [⟨.rightBrace, ⟨1, 1⟩⟩] = .done (.error [⟨⟨1, 1⟩, .noIdentifier⟩]) ⟨⟨1, 0⟩,
    [.returned .statement ⟨0, 0⟩ ⟨1, 0⟩ false, .returned .block ⟨0, 0⟩ ⟨1, 0⟩ false,
      .returned .labelledBlock ⟨0, 1⟩ ⟨1, 1⟩ false, .returned .identifier ⟨0, 1⟩ ⟨1, 1⟩ false,
      .moved 1, .returned .newLines ⟨0, 0⟩ ⟨0, 0⟩ true]⟩ := rfl

end Parser

end ConfigLang
