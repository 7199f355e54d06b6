import ConfigLang.Document.Equality
import ConfigLang.Proofs.Completeness
import ConfigLang.Proofs.Lines
import ConfigLang.Proofs.Resuming
/-!
Documents made of others. Two documents one below the other are the document of all their
statements, and a document in the braces of a block is the body of that block. The statements of a
list of items are what counts: how many newlines there are between two is lost.
-/

set_option autoImplicit false

namespace ConfigLang

namespace Part

theorem ofTrees_append {trees others : List Tree} {first second : List Part}
    (before : ofTrees trees = .ok first) (behind : ofTrees others = .ok second) :
    ofTrees (trees ++ others) = .ok (first ++ second) := by
  induction trees generalizing first with
  | nil =>
      cases before
      exact behind
  | cons tree trees ih =>
      obtain ⟨part, parts, rfl, means, rest⟩ := ofTrees_cons_ok before
      exact ofTrees_cons means (ih rest)

/-- The statements among the trees stand for these. -/
def Stand (trees : List Tree) (statements : List Statement) : Prop :=
  ofTrees (trees.filter Tree.isStatement) = .ok (statements.map .statement)

theorem Stand.nil : Stand [] [] := rfl

theorem Stand.append {trees others : List Tree} {first second : List Statement}
    (before : Stand trees first) (behind : Stand others second) :
    Stand (trees ++ others) (first ++ second) := by
  rw [Stand, List.filter_append, List.map_append]
  exact ofTrees_append before behind

/-- Only the statements among the trees count, and not their places. -/
theorem Stand.of_alike {trees others : List Tree} {statements : List Statement}
    (stand : Stand trees statements)
    (alike : Tree.AlikeAll (trees.filter Tree.isStatement) (others.filter Tree.isStatement)) :
    Stand others statements := by
  obtain ⟨results, read, same⟩ := meanAll_alike _ _ _ alike stand
  have tokenless : Tokenless (statements.map .statement) := by
    intro leaf member
    obtain ⟨statement, _, impossible⟩ := List.mem_map.mp member
    cases impossible
  rw [Stand, read, same.eq tokenless]

/-- A run of newlines, as a tree. -/
def IsNewLines (tree : Tree) : Prop :=
  ∃ lines, Grammar.Newlines lines ∧ Grammar.newLines lines = [tree]

theorem isNewLines_of_mem {lines : List Token} {tree : Tree} (newlines : Grammar.Newlines lines)
    (member : tree ∈ Grammar.newLines lines) : IsNewLines tree := by
  cases lines with
  | nil => cases member
  | cons first lines =>
      cases List.mem_singleton.mp member
      exact ⟨first :: lines, newlines, rfl⟩

theorem filter_newLines (lines : List Token) :
    (Grammar.newLines lines).filter Tree.isStatement = [] := by
  cases lines with
  | nil | cons => rfl

theorem Stand.newLines {lines : List Token} : Stand (Grammar.newLines lines) [] := by
  rw [Stand, filter_newLines]
  rfl

/-- Where there is nothing but statements and newlines, the statements are all that is held. -/
theorem Stand.hold {trees : List Tree} {statements : List Statement}
    (only : ∀ tree ∈ trees, Tree.isStatement tree = true ∨ IsNewLines tree)
    (stand : Stand trees statements) : Hold trees statements := by
  induction trees generalizing statements with
  | nil =>
      have empty : statements = [] := by
        cases statements with
        | nil => rfl
        | cons => cases stand
      subst empty
      exact ⟨.nil, fun _ => rfl⟩
  | cons tree trees ih =>
      obtain ⟨first, others⟩ := List.forall_mem_cons.mp only
      cases is : Tree.isStatement tree with
      | true =>
          rw [Stand, List.filter_cons_of_pos is] at stand
          obtain ⟨part, parts, whole, means, rest⟩ := ofTrees_cons_ok stand
          obtain ⟨statement, statements, rfl, rfl, rfl⟩ := List.map_eq_cons_iff.mp whole
          obtain ⟨inner, _⟩ := ih others rest
          refine ⟨.cons means rfl inner, ?_⟩
          rw [List.any_cons, is]
          exact nofun
      | false =>
          have other : ¬Tree.isStatement tree = true := by
            rw [is]
            exact Bool.false_ne_true
          obtain ⟨lines, newlines, whole⟩ := first.resolve_left other
          rw [Stand, List.filter_cons_of_neg other] at stand
          obtain ⟨inner, empty⟩ := ih others stand
          refine ⟨?_, ?_⟩
          · rw [← List.singleton_append, ← whole]
            exact .newLines newlines inner
          · rw [List.any_cons, is, Bool.false_or]
            exact empty

theorem means_unlabelled {title : Token} {name : String} {line inside : Nat} {trees : List Tree}
    {statements : List Statement} (named : title.kind = .ident name)
    (holds : Hold trees statements) :
    Means (.node .block line (Grammar.leaf .identifier title :: Tree.body inside trees))
      (.statement (.block name [] statements)) :=
  @means_block line inside _ name [] trees [] [] statements (means_identifier named) .nil
    (fun rest => rest) holds

end Part

namespace Tree

open Reader ConfigLang.Part

/-! ### Items -/

variable {depth : Nat} {closing : Option Kind} {stop : Position}

/-- A list of items without faults is read one item after the other up to its end. -/
theorem items_itemized (bound : List Token) {tokens : List Token}
    (inside : ∀ token ∈ tokens, token.kind ≠ .eof) (enough : tokens.length ≤ bound.length)
    (faultless : (items stop bound tokens).faults = []) :
    Itemized (Tree.expression maxNesting) (Tree.block maxNesting) none stop tokens
      (items stop bound tokens).trees [] := by
  induction bound generalizing tokens with
  | nil =>
      cases tokens with
      | nil => exact .none
      | cons => cases enough
  | cons _ bound ih =>
      cases tokens with
      | nil => exact .none
      | cons token tokens =>
          have unended := inside token List.mem_cons_self
          simp only [items, unended, ↓reduceIte] at faultless ⊢
          cases read : item (Tree.expression maxNesting) (Tree.block maxNesting) none token.kind
              stop (token :: tokens) with
          | failed fault left =>
              rw [read] at faultless
              cases faultless
          | done trees left =>
              rw [read] at faultless
              change item _ _ _ (ahead stop (token :: tokens)).kind _ _ = _ at read
              have sound := expression_reads maxNesting
              have nested := block_reads maxNesting
              have starts := Grammar.Block.named maxNesting
              have shorter := item_length sound nested starts read
              have within : ∀ token ∈ left, token.kind ≠ .eof := by
                obtain ⟨used, whole, _⟩ := item_done sound nested starts read
                intro token member
                apply inside
                rw [whole]
                exact List.mem_append_right used member
              have less : left.length ≤ bound.length :=
                Nat.le_of_lt_succ (Nat.lt_of_lt_of_le shorter enough)
              have rest := ih within less faultless
              exact .more trees ⟨unended, Option.some_ne_none _⟩ read shorter rest

/-- The items are statements of the grammar and runs of newlines. -/
theorem itemized_trees {tokens rest : List Token} {trees : List Tree}
    (itemized : Itemized (Tree.expression depth) (Tree.block depth) closing stop tokens trees
      rest) :
    (∀ tree ∈ trees, isStatement tree = true ∨ IsNewLines tree) ∧
      ∃ statements, Stand trees statements := by
  induction itemized with
  | none => exact ⟨nofun, [], .nil⟩
  | @more token tokens left rest trees others _ read _ _ ih =>
      obtain ⟨known, statements, stand⟩ := ih
      have first : (∀ tree ∈ trees, isStatement tree = true ∨ IsNewLines tree) ∧
          ∃ statements, Stand trees statements := by
        change item _ _ _ (ahead stop (token :: tokens)).kind _ _ = _ at read
        obtain ⟨used, _, nonempty, ⟨newlines, rfl, _⟩ | ⟨_, tree, rfl, stmt, _⟩⟩ := item_done
          (expression_reads depth) (block_reads depth) (Grammar.Block.named depth) read
        · exact ⟨fun tree member => .inr (isNewLines_of_mem newlines member), [],
            .newLines⟩
        · have statement := Grammar.Stmt.stated (Grammar.Block.stated depth) stmt
          obtain ⟨value, means⟩ := stmt_stating (expr_expressive depth) (block_stating depth) stmt
          refine ⟨?_, [value], ?_⟩
          · exact List.forall_mem_singleton.mpr (.inl statement)
          · rw [Stand, List.filter_cons_of_pos statement]
            exact ofTrees_cons means rfl
      refine ⟨List.forall_mem_append.mpr ⟨first.1, known⟩, ?_⟩
      obtain ⟨values, before⟩ := first.2
      exact ⟨values ++ statements, before.append stand⟩

/-! ### Items before others -/

/-- One of the items fails, none before it does. -/
inductive Stumbles (expression block : Reader Tree) (closing : Option Kind) (stop : Position) :
    List Token → Fault → Prop
  | here {token : Token} {tokens left : List Token} {fault : Fault}
      (inside : token.kind ≠ .eof ∧ some token.kind ≠ closing)
      (read : item expression block closing token.kind stop (token :: tokens) =
        .failed fault left) :
      Stumbles expression block closing stop (token :: tokens) fault
  | later {token : Token} {tokens left : List Token} {trees : List Tree} {fault : Fault}
      (inside : token.kind ≠ .eof ∧ some token.kind ≠ closing)
      (read : item expression block closing token.kind stop (token :: tokens) = .done trees left)
      (shorter : left.length < (token :: tokens).length)
      (follow : Stumbles expression block closing stop left fault) :
      Stumbles expression block closing stop (token :: tokens) fault

theorem stumbles_newlines {expression block : Reader Tree} {lines left : List Token} {fault : Fault}
    (closes : ClosesBody closing) (newlines : Grammar.Newlines lines) (past : PastNewlines left)
    (follow : Stumbles expression block closing stop left fault) :
    Stumbles expression block closing stop (lines ++ left) fault := by
  cases lines with
  | nil => exact follow
  | cons line lines =>
      have newline := newlines line List.mem_cons_self
      have read : item expression block closing line.kind stop (line :: (lines ++ left)) =
          .done (Grammar.newLines (line :: lines)) left := by
        rw [item, if_pos newline]
        exact newLines_append newlines past
      refine .later ?_ read ?_ follow
      · rw [newline]
        exact ⟨by decide, closes.ne (by decide)⟩
      · change left.length < (line :: (lines ++ left)).length
        rw [List.length_cons, List.length_append]
        omega

/-- Behind any newlines the tokens are read up to the rest as items with these statements, unless
one of the items fails for a cause that lets it escape. -/
def States (Escapes : Cause → Prop) (depth : Nat) (closing : Option Kind) (stop : Position)
    (rest tokens : List Token) (statements : List Tree) : Prop :=
  ∀ lines, Grammar.Newlines lines →
    (∃ trees, Itemized (Tree.expression depth) (Tree.block depth) closing stop (lines ++ tokens)
        trees rest ∧ AlikeAll statements (trees.filter isStatement)) ∨
      ∃ fault, Stumbles (Tree.expression depth) (Tree.block depth) closing stop (lines ++ tokens)
          fault ∧ Escapes fault.cause

section States

variable {Escapes : Cause → Prop} {rest tokens more others : List Token} {statements : List Tree}

theorem States.of_past (closes : ClosesBody closing) (past : PastNewlines rest) :
    States Escapes depth closing stop rest rest [] := by
  intro lines newlines
  refine .inl ⟨Grammar.newLines lines ++ [], itemized_newlines closes newlines past .none, ?_⟩
  rw [List.append_nil, filter_newLines]
  rfl

theorem States.newlines {feeds : List Token} (newlines : Grammar.Newlines feeds)
    (states : States Escapes depth closing stop rest tokens statements) :
    States Escapes depth closing stop rest (feeds ++ tokens) statements := by
  intro lines before
  have longer : Grammar.Newlines (lines ++ feeds) := List.forall_mem_append.mpr ⟨before, newlines⟩
  have read := states (lines ++ feeds) longer
  rwa [List.append_assoc] at read

theorem inside_of_named {token : Token} {name : String} (closes : ClosesBody closing)
    (named : token.kind = .ident name) : token.kind ≠ .eof ∧ some token.kind ≠ closing := by
  rw [named]
  exact ⟨by simp, closes.ne (by simp)⟩

/-- A statement that is read, or at which reading fails, before others. -/
theorem States.statement {token : Token} {name : String} {tree : Tree} (closes : ClosesBody closing)
    (named : token.kind = .ident name)
    (read : (∃ result left, item (Tree.expression depth) (Tree.block depth) closing token.kind stop
          (token :: tokens) = .done [result] left ∧ Alike tree result ∧
          isStatement tree = true ∧ left.length < (token :: tokens).length ∧
          States Escapes depth closing stop rest left statements) ∨
      ∃ fault left, item (Tree.expression depth) (Tree.block depth) closing token.kind stop
          (token :: tokens) = .failed fault left ∧ Escapes fault.cause) :
    States Escapes depth closing stop rest (token :: tokens) (tree :: statements) := by
  have inside := inside_of_named closes named
  have past : PastNewlines (token :: tokens) := pastNewlines_of_kind named (by simp)
  intro lines newlines
  rcases read with ⟨result, left, read, alike, is, shorter, states⟩ | ⟨fault, left, read, escapes⟩
  · rcases states [] .nil with ⟨trees, itemized, same⟩ | ⟨fault, stumbles, escapes⟩
    · have item := itemized_newlines closes newlines past
        (.more [result] inside read shorter itemized)
      refine .inl ⟨_, item, ?_⟩
      have kept : isStatement result = true := by
        rw [← is, ← isStatement_unplaced tree, ← isStatement_unplaced result, alike]
      rw [List.filter_append, filter_newLines, List.nil_append, List.singleton_append,
        List.filter_cons_of_pos kept]
      exact congrArg₂ List.cons alike same
    · exact .inr ⟨fault, stumbles_newlines closes newlines past
        (.later inside read shorter stumbles), escapes⟩
  · exact .inr ⟨fault, stumbles_newlines closes newlines past (.here inside read), escapes⟩

/-- A statement that is read alone is read in the same way where more items follow, or fails there
for a cause that lets it escape. -/
theorem statement_resumes {depth' : Nat} {stop' : Position} {token next : Token}
    {left behind : List Token} {tree : Tree}
    (carries : CarriesTree Escapes False (Tree.expression depth) (Tree.expression depth'))
    (inner : CarriesTree Escapes False (Tree.block depth) (Tree.block depth'))
    (line : NextLine more) (same : token.kind = next.kind) (follow : Extends more tokens behind)
    (other : token.kind ≠ .newline)
    (read : item (Tree.expression depth) (Tree.block depth) none token.kind stop
      (token :: tokens) = .done [tree] left) :
    (∃ result rest, item (Tree.expression depth') (Tree.block depth') closing next.kind stop'
        (next :: behind) = .done [result] rest ∧ Alike tree result ∧
        rest.length < (next :: behind).length ∧ Extends more left rest) ∨
      ∃ fault rest, item (Tree.expression depth') (Tree.block depth') closing next.kind stop'
        (next :: behind) = .failed fault rest ∧ Escapes fault.cause := by
  have both : CarriesTrees Escapes False
      (alone (statement (Tree.expression depth) (Tree.block depth) none))
      (alone (statement (Tree.expression depth') (Tree.block depth') closing)) :=
    alone_carries (statement_carries (.inl rfl) carries inner (block_nil depth))
  have carried := both.resumes line (.cons same follow) stop stop'
  have other' : next.kind ≠ .newline := by
    rw [← same]
    exact other
  rw [item, if_neg other] at read
  rw [read] at carried
  cases again : item (Tree.expression depth') (Tree.block depth') closing next.kind stop'
      (next :: behind) with
  | failed fault rest =>
      rw [item, if_neg other'] at again
      rw [again] at carried
      cases carried with
      | escaped escapes => exact .inr ⟨fault, rest, rfl, escapes⟩
      | spent impossible => exact impossible.elim
  | done results rest =>
      have shorter : rest.length < (next :: behind).length :=
        item_length (expression_reads depth') (block_reads depth')
          (Grammar.Block.named depth')
          (show item _ _ _ (ahead stop' (next :: behind)).kind _ _ = _ from again)
      rw [item, if_neg other'] at again
      obtain ⟨result, _, rfl⟩ := alone_done_iff.mp again
      rw [again] at carried
      cases carried with
      | done alike longer =>
        exact .inl ⟨result, rest, rfl, (List.cons.inj alike).1, shorter, longer⟩
      | spent impossible => exact impossible.elim

/-- What is read alone is read in the same way where more items follow. -/
theorem states_of_itemized {depth' : Nat} {stop' : Position}
    {trees last : List Tree} (closes : ClosesBody closing)
    (carries : CarriesTree Escapes False (Tree.expression depth) (Tree.expression depth'))
    (inner : CarriesTree Escapes False (Tree.block depth) (Tree.block depth'))
    (itemized : Itemized (Tree.expression depth) (Tree.block depth) none stop tokens trees [])
    (line : NextLine more) (longer : Extends more tokens others)
    (follow : States Escapes depth' closing stop' rest more last) :
    States Escapes depth' closing stop' rest others (trees.filter isStatement ++ last) := by
  generalize ends : ([] : List Token) = left at itemized
  induction itemized generalizing others with
  | none =>
      subst ends
      cases longer
      exact follow
  | @more token tokens left _ trees results inside read shorter _ ih =>
      have item := read
      change Tree.item _ _ _ (ahead stop (token :: tokens)).kind _ _ = _ at item
      obtain ⟨used, whole, _, ⟨newlines, rfl, _⟩ | ⟨other, tree, rfl, stmt, _⟩⟩ := item_done
        (expression_reads depth) (block_reads depth) (Grammar.Block.named depth) item
      · rw [whole] at longer
        obtain ⟨feeds, behind, rfl, kinds, longer⟩ := longer.split
        rw [List.filter_append, filter_newLines, List.nil_append]
        exact (ih longer ends).newlines (newlines_of_kinds newlines kinds)
      · obtain ⟨first, _, name, rfl, named⟩ :=
          Grammar.Stmt.named (Grammar.Block.named depth) stmt
        cases (List.cons.inj whole).1
        cases longer with
        | @cons _ next _ behind same behind' =>
        have named' : next.kind = .ident name := same.symm.trans named
        have is := Grammar.Stmt.stated (Grammar.Block.stated depth) stmt
        rw [List.filter_append, List.filter_cons_of_pos is]
        apply States.statement closes named'
        rcases statement_resumes carries inner line same behind' other read with
          ⟨result, rest, again, alike, shorter, longer⟩ | failed
        · exact .inl ⟨result, rest, again, alike, is, shorter, ih longer ends⟩
        · exact .inr failed

end States

theorem ofTokens_of_itemized {after : Position} {trees : List Tree} {tokens : List Token}
    (itemized : Itemized (Tree.expression maxNesting) (Tree.block maxNesting) none after tokens
      trees []) :
    ∃ line, ofTokens (tokens ++ [⟨.eof, after⟩]) = .ok (Grammar.document line trees) := by
  refine ⟨(tokens.head?.getD ⟨.eof, after⟩).place.line, ?_⟩
  unfold ofTokens
  simp only [splitEnd_append, items_takes itemized tokens (Nat.le_refl _), List.isEmpty_nil,
    ↓reduceIte]
  rfl

theorem itemized_of_ofTokens {after : Position} {tree : Tree} {tokens : List Token}
    (inside : ∀ token ∈ tokens, token.kind ≠ .eof)
    (read : ofTokens (tokens ++ [⟨.eof, after⟩]) = .ok tree) :
    ∃ line trees, tree = Grammar.document line trees ∧
      Itemized (Tree.expression maxNesting) (Tree.block maxNesting) none after tokens trees [] := by
  unfold ofTokens at read
  simp only [splitEnd_append] at read
  split at read
  next faultless =>
    cases read
    exact ⟨_, _, rfl, items_itemized tokens inside (Nat.le_refl _) (List.isEmpty_iff.mp faultless)⟩
  next => cases read

/-- The same tokens further down. -/
theorem extends_of_kinds {tokens others : List Token}
    (same : tokens.map Token.kind = others.map Token.kind) (more : List Token) :
    Extends more tokens (others ++ more) := by
  induction tokens generalizing others with
  | nil =>
      cases List.map_eq_nil_iff.mp same.symm
      exact .nil
  | cons token tokens ih =>
      obtain ⟨other, others, rfl, first, rest⟩ := List.map_eq_cons_iff.mp same.symm
      exact .cons first.symm (ih rest.symm)

theorem extends_below (lines : Nat) (tokens more : List Token) :
    Extends more tokens (tokens.map (·.below lines) ++ more) :=
  extends_of_kinds (by simp [Function.comp_def, Token.below]) more

theorem extends_append (tokens more : List Token) : Extends more tokens (tokens ++ more) :=
  extends_of_kinds rfl more

/-! ### Items in braces -/

theorem blockItems_cons {expression block : Reader Tree} {first token : Token}
    {bound tokens : List Token} (inside : token.kind ≠ .eof ∧ some token.kind ≠ some .rightBrace) :
    blockItems expression block (first :: bound) stop (token :: tokens) =
      (do
        let trees ← item expression block (some .rightBrace) token.kind
        let others ← blockItems expression block bound
        return trees ++ others : Reader (List Tree)) stop (token :: tokens) := by
  have goes : ¬(token.kind = .rightBrace ∨ token.kind = .eof) :=
    not_or.mpr ⟨fun same => inside.2 (congrArg some same), inside.1⟩
  rw [blockItems, peek_bind, ahead_cons, if_neg goes]

theorem blockItems_stumbles {expression block : Reader Tree} {tokens : List Token} {fault : Fault}
    (stumbles : Stumbles expression block (some .rightBrace) stop tokens fault)
    (bound : List Token) (enough : tokens.length < bound.length) :
    ∃ left, blockItems expression block bound stop tokens = .failed fault left := by
  induction stumbles generalizing bound with
  | @here _ _ left _ inside read =>
      obtain ⟨first, bound, rfl⟩ := List.exists_cons_of_length_pos (Nat.zero_lt_of_lt enough)
      refine ⟨left, ?_⟩
      rw [blockItems_cons inside, bind_of_failed read]
  | later inside read shorter _ ih =>
      obtain ⟨first, bound, rfl⟩ := List.exists_cons_of_length_pos (Nat.zero_lt_of_lt enough)
      simp only [List.length_cons] at enough shorter
      obtain ⟨left, failed⟩ := ih bound (by omega)
      refine ⟨left, ?_⟩
      rw [blockItems_cons inside, bind_of_done read, bind_of_failed failed]

/-- At the top the first item that fails is the first fault. -/
theorem items_stumbles {tokens : List Token} {fault : Fault}
    (stumbles : Stumbles (Tree.expression maxNesting) (Tree.block maxNesting) none stop tokens
      fault) (bound : List Token) (enough : tokens.length ≤ bound.length) :
    ∃ more, (items stop bound tokens).faults = fault :: more := by
  induction stumbles generalizing bound with
  | @here _ _ left _ inside read =>
      obtain ⟨first, bound, rfl⟩ :=
        List.exists_cons_of_length_pos (Nat.lt_of_lt_of_le (Nat.succ_pos _) enough)
      refine ⟨(items stop bound (recover 0 left)).faults, ?_⟩
      simp only [items, inside.1, ↓reduceIte, read, Items.blame]
  | later inside read shorter _ ih =>
      obtain ⟨first, bound, rfl⟩ :=
        List.exists_cons_of_length_pos (Nat.lt_of_lt_of_le (Nat.succ_pos _) enough)
      simp only [List.length_cons] at enough shorter
      obtain ⟨more, faults⟩ := ih bound (by omega)
      refine ⟨more, ?_⟩
      simp only [items, inside.1, ↓reduceIte, read, Items.add, faults]

theorem ofTokens_of_stumbles {after : Position} {tokens : List Token} {fault : Fault}
    (stumbles : Stumbles (Tree.expression maxNesting) (Tree.block maxNesting) none after tokens
      fault) :
    ∃ more, ofTokens (tokens ++ [⟨.eof, after⟩]) = .error (fault :: more) := by
  obtain ⟨more, faults⟩ := items_stumbles stumbles tokens (Nat.le_refl _)
  refine ⟨more, ?_⟩
  unfold ofTokens
  simp only [splitEnd_append, faults, List.isEmpty_cons, Bool.false_eq_true, ↓reduceIte]

section Braces

variable {title opening : Token} {name : String} {inner : List Token}

/-- Behind a name and an opening brace there are the items of a block, and its closing brace. -/
theorem clause_opening (named : title.kind = .ident name) (opens : opening.kind = .leftBrace) :
    clause (Tree.expression (depth + 1)) (Tree.block (depth + 1)) stop (title :: opening :: inner) =
      (do
        let items ← repeating (blockItems (Tree.expression depth) (Tree.block depth))
        let _ ← expect .rightBrace
        return .node .block title.place.line (Grammar.leaf .identifier title ::
          body (ahead stop inner).place.line items) : Reader Tree) stop inner := by
  have unassigned : ¬some opening.kind = some .assign := by
    rw [opens]
    exact nofun
  have unlabelled : Tree.labels stop (opening :: inner) = .done [] (opening :: inner) :=
    labels_takes .none opens
  rw [clause, peekSecond_bind, List.tail_cons, List.head?_cons, Option.map_some, if_neg unassigned,
    Tree.block, labelledBlock, peek_bind, ahead_cons, bind_of_done (identifier_of_kind named),
    bind_of_done unlabelled, bind_of_done (expect_of_kind opens), peek_bind]
  rfl

/-- Items in the braces of a block at the end of a document are read as this block. -/
theorem itemized_enclosed {closing : Token} {trees : List Tree} (named : title.kind = .ident name)
    (opens : opening.kind = .leftBrace) (closes : closing.kind = .rightBrace)
    (itemized : Itemized (Tree.expression depth) (Tree.block depth) (some .rightBrace) stop inner
      trees [closing]) :
    Itemized (Tree.expression (depth + 1)) (Tree.block (depth + 1)) none stop
      (title :: opening :: inner)
      [.node .block title.place.line
        (Grammar.leaf .identifier title :: body (ahead stop inner).place.line trees)] [] := by
  have items : repeating (blockItems (Tree.expression depth) (Tree.block depth)) stop inner =
      .done trees [closing] :=
    blockItems_takes itemized closes _ (Nat.lt_succ_self _)
  let tree : Tree := .node .block title.place.line
    (Grammar.leaf .identifier title :: body (ahead stop inner).place.line trees)
  have read : clause (Tree.expression (depth + 1)) (Tree.block (depth + 1)) stop
      (title :: opening :: inner) = .done tree [] := by
    rw [clause_opening named opens, bind_of_done items, bind_of_done (expect_of_kind closes)]
    rfl
  have ended : statement (Tree.expression (depth + 1)) (Tree.block (depth + 1)) none stop
      (title :: opening :: inner) = .done tree [] := by
    rw [statement, bind_of_done read]
    rfl
  have other : title.kind ≠ .newline := by simp [named]
  have whole : item (Tree.expression (depth + 1)) (Tree.block (depth + 1)) none title.kind stop
      (title :: opening :: inner) = .done [tree] [] := by
    rw [item, if_neg other, alone, bind_of_done ended]
    rfl
  have shorter : ([] : List Token).length < (title :: opening :: inner).length := Nat.succ_pos _
  exact .more [tree] (inside_of_named .none named) whole shorter .none

/-- If one of the items fails, the block fails like it. -/
theorem stumbles_enclosed {fault : Fault} (named : title.kind = .ident name)
    (opens : opening.kind = .leftBrace)
    (stumbles : Stumbles (Tree.expression depth) (Tree.block depth) (some .rightBrace) stop inner
      fault) :
    Stumbles (Tree.expression (depth + 1)) (Tree.block (depth + 1)) none stop
      (title :: opening :: inner) fault := by
  obtain ⟨left, failed⟩ := blockItems_stumbles stumbles (⟨.eof, stop⟩ :: inner) (Nat.lt_succ_self _)
  have items : repeating (blockItems (Tree.expression depth) (Tree.block depth)) stop inner =
      .failed fault left := failed
  have read : clause (Tree.expression (depth + 1)) (Tree.block (depth + 1)) stop
      (title :: opening :: inner) = .failed fault left := by
    rw [clause_opening named opens, bind_of_failed items]
  have ended : statement (Tree.expression (depth + 1)) (Tree.block (depth + 1)) none stop
      (title :: opening :: inner) = .failed fault left := by
    rw [statement, bind_of_failed read]
  have other : title.kind ≠ .newline := by simp [named]
  have whole : item (Tree.expression (depth + 1)) (Tree.block (depth + 1)) none title.kind stop
      (title :: opening :: inner) = .failed fault left := by
    rw [item, if_neg other, alone, bind_of_failed ended]
  exact .here (inside_of_named .none named) whole

end Braces

end Tree

namespace Document

open ConfigLang.Tree ConfigLang.Part

/-! ### Texts -/

/-- Whether a document has been read can be tested. -/
instance (reading : Except ParseError Document) (document : Document) :
    Decidable (reading = .ok document) :=
  match reading with
  | .ok other => decidable_of_iff (other = document) ⟨congrArg Except.ok, Except.ok.inj⟩
  | .error _ => isFalse (by intro same; cases same)

/-- The document of a list of tokens, or what is wrong with it. -/
def ofTokens (tokens : List Token) : Except ParseError Document := do
  let tree ← (Tree.ofTokens tokens).mapError .faults
  (ofTree tree).mapError .malformed

theorem parse_eq_ofTokens (text : String) :
    parse text = (Token.ofText text).mapError .faults >>= ofTokens := rfl

theorem parse_of_run {text : String} {tokens : List Token}
    (scanned : Scan.run false .start text.toList = ⟨tokens, []⟩) :
    parse text = ofTokens tokens := by
  rw [parse_eq_ofTokens, Token.ofText_eq_ok_iff.mpr scanned]
  rfl

theorem ofTokens_of_document {tokens : List Token} {line : Nat} {trees : List Tree}
    {statements : List Statement} (read : Tree.ofTokens tokens = .ok (Grammar.document line trees))
    (holds : Hold trees statements) : ofTokens tokens = .ok ⟨statements⟩ := by
  have means : Part.ofTree (Grammar.document line trees) = .ok (.document ⟨statements⟩) :=
    means_document holds
  unfold ofTokens
  rw [read]
  change (ofTree (Grammar.document line trees)).mapError _ = _
  rw [ofTree, means]
  rfl

theorem ofTokens_of_faults {tokens : List Token} {faults : List Fault}
    (read : Tree.ofTokens tokens = .error faults) : ofTokens tokens = .error (.faults faults) := by
  unfold ofTokens
  rw [read]
  rfl

/-- A text whose tokens are read as items is the document of their statements. -/
theorem parse_of_itemized {text : String} {tokens : List Token} {after : Position}
    {trees : List Tree} {statements : List Statement}
    (scanned : Scan.run false .start text.toList = ⟨tokens ++ [⟨.eof, after⟩], []⟩)
    (itemized : Itemized (expression maxNesting) (block maxNesting) none after tokens trees [])
    (stand : Stand trees statements) : parse text = .ok ⟨statements⟩ := by
  obtain ⟨line, read⟩ := ofTokens_of_itemized itemized
  rw [parse_of_run scanned]
  exact ofTokens_of_document read (stand.hold (itemized_trees itemized).1)

/-- A text of which an item fails is no document, and this is the first of its faults. -/
theorem parse_of_stumbles {text : String} {tokens : List Token} {after : Position} {fault : Fault}
    (scanned : Scan.run false .start text.toList = ⟨tokens ++ [⟨.eof, after⟩], []⟩)
    (stumbles : Stumbles (expression maxNesting) (block maxNesting) none after tokens fault) :
    ∃ more, parse text = .error (.faults (fault :: more)) := by
  obtain ⟨more, failed⟩ := ofTokens_of_stumbles stumbles
  rw [parse_of_run scanned]
  exact ⟨more, ofTokens_of_faults failed⟩

/-- A text that has been read: its tokens are items, and a line feed behind it ends its last
line. -/
theorem parse_reads {text : String} {document : Document} (parsed : parse text = .ok document) :
    ∃ tokens after trees,
      Scan.run false .start text.toList = ⟨tokens ++ [⟨.eof, after⟩], []⟩ ∧
      (∀ rest, Scan.run false .start (text.toList ++ '\n' :: rest) =
        (Scan.run false (after.past '\n') rest).prepend (tokens ++ [⟨.newline, after⟩])) ∧
      Itemized (expression maxNesting) (block maxNesting) none after tokens trees [] ∧
      Stand trees document.body := by
  have faultless : (Scan.run false .start text.toList).faults = [] := by
    rw [parse_eq_ofTokens] at parsed
    unfold Token.ofText at parsed
    dsimp only at parsed
    split at parsed
    next none => exact List.isEmpty_iff.mp none
    next => cases parsed
  obtain ⟨tokens, after, scanned, inside, follow⟩ :=
    Scan.run_line false .start text.toList faultless
  rw [parse_of_run scanned] at parsed
  cases read : Tree.ofTokens (tokens ++ [⟨.eof, after⟩]) with
  | error faults =>
      rw [ofTokens_of_faults read] at parsed
      cases parsed
  | ok tree =>
      obtain ⟨line, trees, rfl, itemized⟩ := itemized_of_ofTokens inside read
      obtain ⟨known, statements, stand⟩ := itemized_trees itemized
      rw [ofTokens_of_document read (stand.hold known)] at parsed
      cases parsed
      exact ⟨tokens, after, trees, scanned, follow, itemized, stand⟩

/-- Two documents one below the other are the document of the statements of both. -/
theorem parse_append_line {first second : String} {before behind : Document}
    (parsed : parse first = .ok before) (more : parse second = .ok behind) :
    parse (first ++ "\n" ++ second) = .ok ⟨before.body ++ behind.body⟩ := by
  obtain ⟨tokens, after, trees, _, follow, itemized, stand⟩ := parse_reads parsed
  obtain ⟨others, last, results, scanned, _, itemizedMore, standMore⟩ := parse_reads more
  have below : after.past '\n' = Position.start.below after.line := by
    rw [Position.past_newline, Position.below, Position.start, Nat.add_comm]
  have whole : Scan.run false .start (first ++ "\n" ++ second).toList =
      ⟨(tokens ++ ⟨.newline, after⟩ :: others.map (·.below after.line)) ++
        [⟨.eof, last.below after.line⟩], []⟩ := by
    have text : (first ++ "\n" ++ second).toList = first.toList ++ '\n' :: second.toList := by
      rw [String.toList_append, String.toList_append, List.append_assoc]
      rfl
    rw [text, follow, below, Scan.run_below, scanned]
    simp [Scan.Result.prepend, Scan.Result.below, Token.below]
  have ends : States (fun _ => False) maxNesting none (last.below after.line) [] [] [] :=
    .of_past .none .nil
  have lower := states_of_itemized .none (expression_carries maxNesting) (block_carries maxNesting)
    itemizedMore .nil (extends_below after.line others []) ends
  rw [List.append_nil, List.append_nil] at lower
  have feed : Grammar.Newlines [⟨.newline, after⟩] := List.forall_mem_singleton.mpr rfl
  have both := states_of_itemized .none (expression_carries maxNesting) (block_carries maxNesting)
    itemized (.cons rfl) (extends_append tokens _) (lower.newlines feed)
  rcases both [] .nil with ⟨all, read, alike⟩ | ⟨_, _, impossible⟩
  · refine parse_of_itemized whole read ((stand.append standMore).of_alike ?_)
    rwa [List.filter_append]
  · exact impossible.elim

/-- A comment does not go on below. -/
theorem parse_append_line_comment :
    parse "b \x7b\x7d # c" = .ok ⟨[.block "b" [] []]⟩ ∧
      parse "a = [\n1]" = .ok ⟨[.assign "a" (.array [.literal (.int 1)])]⟩ ∧
      parse ("b \x7b\x7d # c" ++ "\n" ++ "a = [\n1]") =
        .ok ⟨[.block "b" [] [], .assign "a" (.array [.literal (.int 1)])]⟩ := by
  have first : parse "b \x7b\x7d # c" = .ok ⟨[.block "b" [] []]⟩ := by decide +kernel
  have second : parse "a = [\n1]" = .ok ⟨[.assign "a" (.array [.literal (.int 1)])]⟩ := by
    decide +kernel
  exact ⟨first, second, parse_append_line first second⟩

/-! ### The braces of a block -/

/-- The tokens of the line that opens a block. -/
theorem run_opening (rest : List Char) :
    Scan.run false .start ('b' :: ' ' :: '\x7b' :: '\n' :: rest) =
      (Scan.run false (Position.start.below 1) rest).prepend
        [⟨.ident "b", ⟨1, 1⟩⟩, ⟨.leftBrace, ⟨1, 3⟩⟩, ⟨.newline, ⟨1, 4⟩⟩] := by
  have name : ∀ flag, Scan.next flag .start 'b' (' ' :: '\x7b' :: '\n' :: rest) =
      ⟨.token (.ident "b"), ⟨1, 2⟩, ' ' :: '\x7b' :: '\n' :: rest⟩ := fun _ => rfl
  have blank : ∀ flag, Scan.next flag ⟨1, 2⟩ ' ' ('\x7b' :: '\n' :: rest) =
      ⟨.blank, ⟨1, 3⟩, '\x7b' :: '\n' :: rest⟩ := fun _ => rfl
  have brace : ∀ flag, Scan.next flag ⟨1, 3⟩ '\x7b' ('\n' :: rest) =
      ⟨.token .leftBrace, ⟨1, 4⟩, '\n' :: rest⟩ := fun _ => rfl
  rw [Scan.run_token (name _), Scan.run_blank (blank _), Scan.run_token (brace _),
    Scan.run_token (Scan.next_newline ..)]
  rfl

theorem run_closing (flag : Bool) (place : Position) :
    Scan.run flag place ['\x7d'] =
      ⟨[⟨.rightBrace, place⟩, ⟨.eof, place.past '\x7d'⟩], []⟩ := by
  have brace : Scan.next flag place '\x7d' [] = ⟨.token .rightBrace, place.past '\x7d', []⟩ := rfl
  rw [Scan.run_token brace, Scan.run]
  rfl

/-- The tokens of a text in braces are its own, one line further down. -/
theorem run_enclosed {text : String} {tokens : List Token} {after : Position}
    (follow : ∀ rest, Scan.run false .start (text.toList ++ '\n' :: rest) =
      (Scan.run false (after.past '\n') rest).prepend (tokens ++ [⟨.newline, after⟩])) :
    Scan.run false .start ("b \x7b\n" ++ text ++ "\n\x7d").toList =
      ⟨⟨.ident "b", ⟨1, 1⟩⟩ :: ⟨.leftBrace, ⟨1, 3⟩⟩ :: ⟨.newline, ⟨1, 4⟩⟩ ::
        (tokens.map (·.below 1) ++
          [⟨.newline, after.below 1⟩, ⟨.rightBrace, (after.past '\n').below 1⟩]) ++
        [⟨.eof, ((after.past '\n').past '\x7d').below 1⟩], []⟩ := by
  have characters : ("b \x7b\n" ++ text ++ "\n\x7d").toList =
      'b' :: ' ' :: '\x7b' :: '\n' :: (text.toList ++ '\n' :: ['\x7d']) := by
    rw [String.toList_append, String.toList_append, List.append_assoc]
    rfl
  rw [characters, run_opening, Scan.run_below, follow, run_closing]
  simp [Scan.Result.prepend, Scan.Result.below, Token.below]

/-- The statements of a document, in the braces of a block, are the body of this block, unless they
are nested too deeply there. -/
theorem parse_enclosed {text : String} {document : Document} (parsed : parse text = .ok document) :
    parse ("b \x7b\n" ++ text ++ "\n\x7d") = .ok ⟨[.block "b" [] document.body]⟩ ∨
      ∃ fault more, parse ("b \x7b\n" ++ text ++ "\n\x7d") = .error (.faults (fault :: more)) ∧
        fault.cause.code = .nestedTooDeep := by
  obtain ⟨tokens, after, trees, _, follow, itemized, stand⟩ := parse_reads parsed
  have scanned := run_enclosed follow
  generalize ((after.past '\n').past '\x7d').below 1 = stop at scanned
  have closes : States (· = .nestedTooDeep) 127 (some .rightBrace) stop
      [⟨.rightBrace, (after.past '\n').below 1⟩] [⟨.rightBrace, (after.past '\n').below 1⟩] [] :=
    .of_past .brace (pastNewlines_of_kind rfl nofun)
  have last : Grammar.Newlines [⟨.newline, after.below 1⟩] := List.forall_mem_singleton.mpr rfl
  have inner := states_of_itemized .brace (expression_carries_shallower 127)
    (block_carries_shallower 127) itemized (.cons rfl) (extends_below 1 tokens _)
    (closes.newlines last)
  have first : Grammar.Newlines [⟨.newline, ⟨1, 4⟩⟩] := List.forall_mem_singleton.mpr rfl
  rw [List.append_nil] at inner
  rcases inner [_] first with ⟨all, read, alike⟩ | ⟨fault, stumbles, deep⟩
  · have holds := (stand.of_alike alike).hold (itemized_trees read).1
    refine .inl (parse_of_itemized scanned (itemized_enclosed rfl rfl rfl read) ?_)
    exact ofTrees_cons (means_unlabelled rfl holds) rfl
  · obtain ⟨more, failed⟩ := parse_of_stumbles scanned (stumbles_enclosed rfl rfl stumbles)
    exact .inr ⟨fault, more, failed, congrArg Cause.code deep⟩

theorem parse_enclosed_array :
    parse "\na = [\n1]" = .ok ⟨[.assign "a" (.array [.literal (.int 1)])]⟩ ∧
      parse ("b \x7b\n" ++ "\na = [\n1]" ++ "\n\x7d") =
        .ok ⟨[.block "b" [] [.assign "a" (.array [.literal (.int 1)])]]⟩ := by
  have inner : parse "\na = [\n1]" = .ok ⟨[.assign "a" (.array [.literal (.int 1)])]⟩ := by
    decide +kernel
  have accepted : (parse ("b \x7b\n" ++ "\na = [\n1]" ++ "\n\x7d")).isOk = true := by
    decide +kernel
  refine ⟨inner, (parse_enclosed inner).resolve_right ?_⟩
  rintro ⟨fault, more, failed, -⟩
  rw [failed] at accepted
  cases accepted

end Document

end ConfigLang
