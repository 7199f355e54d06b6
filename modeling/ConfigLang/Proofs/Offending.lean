import ConfigLang.Proofs.Expressing
/-!
The first fault of a document is at the first token that offends: the tokens before it can be
continued to a document, and those up to it cannot, however deep documents may be nested.
-/

set_option autoImplicit false

namespace ConfigLang

namespace Ebnf

open Reader

open scoped Computability

/-! ### How bodies go on -/

/-- `(NL+ item)* NL*` -/
def following (item : Language Kind) : Language Kind :=
  (someLines * item)∗ * lines

/-- `(item (NL+ item)* NL*)?` -/
def statements (item : Language Kind) : Language Kind :=
  optional (item * following item)

theorem following_eq (item : Language Kind) :
    following item = optional (someLines * statements item) := by
  have more : (someLines * item)∗ * lines = lines + someLines * (item * following item) := by
    nth_rewrite 1 [star_mul]
    rw [mul_assoc, following]
  rw [following, more]
  nth_rewrite 1 [lines_eq]
  simp only [statements, optional, mul_add, mul_one, add_assoc]

theorem body_eq (item : Language Kind) : body item = lines * statements item := by
  have twice : lines * lines = lines := kstar_mul_kstar _
  simp only [body, statements, following, optional, mul_add, add_mul, mul_one, one_mul, mul_assoc,
    twice]

theorem begins_anyStmt : Begins (fun kind => ∃ name, kind = .ident name) anyStmt := by
  have name : Begins (fun kind => ∃ name, kind = .ident name) ident :=
    begins_terminal fun _ is => is
  rw [anyStmt, stmt, anyBlock_eq]
  exact .add name.mul name.mul

/-! ### Statements -/

/-- What follows the title of a block. -/
def blockTail (after : Language Kind) : Language Kind :=
  key∗ * (mark .leftBrace * (body anyStmt * (mark .rightBrace * after)))

/-- A statement begins with a name, and what is next tells an attribute from a block. -/
theorem anyStmt_mul (after : Language Kind) :
    anyStmt * after = ident * (mark .assign * (anyExpr * after) + blockTail after) := by
  nth_rewrite 1 [anyStmt]
  rw [stmt, anyBlock_eq, labelled, blockTail]
  simp only [add_mul, mul_add, mul_assoc]

theorem starts_blockTail {test : Kind → Prop} (keys : ∀ kind, IsKey kind → test kind)
    (opens : test .leftBrace) (after : Language Kind) : Starts test (blockTail after) := by
  rw [blockTail, key_eq]
  exact (begins_terminal keys).starts.star.mul (begins_mark opens).mul.starts

/-- The kinds behind which no statement goes on. -/
def EndsLine (closing : Option Kind) (kind : Kind) : Prop :=
  kind = .newline ∨ some kind = closing

section Statements

variable {depth : Nat} {expression block : Reader Tree} {after language : Language Kind}
  {closing : Option Kind} {stop : Position} {tokens : List Token}

/-- A reader of blocks, which is only called where no `=` follows the token ahead. -/
def Blocking (block : Reader Tree) : Prop :=
  ∀ {after : Language Kind} {stop : Position} {tokens : List Token}, Viable after →
    (ahead stop tokens.tail).kind ≠ .assign →
    Follows (anyStmt * after) (fun _ => after) stop tokens (block stop tokens)

theorem follows_attr (expressing : Expressing expression) (viable : Viable after)
    (others : Starts Outside after) (assigned : (ahead stop tokens.tail).kind = .assign) :
    Follows (anyStmt * after) (fun _ => after) stop tokens
      (Tree.attr expression stop tokens) := by
  have value : Viable (mark .assign * (anyExpr * after)) :=
    (viable_mark _).mul (viable_anyExpr.mul viable)
  rw [Tree.attr, peek_bind, anyStmt_mul]
  refine .bind (follows_identifier value.left) fun key left read => ?_
  obtain ⟨token, _, rfl, _⟩ := identifier_done read
  obtain ⟨sign, rest, rfl, assigns⟩ := eq_cons_of_kind assigned (by decide)
  -- The `=` that was seen behind the name is not in the title of a block.
  have apart : Starts (· ≠ .assign) (blockTail after) :=
    starts_blockTail (fun _ => ne_of_isKey (by simp [IsKey])) (by decide) after
  refine .narrow (.left (apart.unmet fun differs => differs assigns)) ?_
  refine .bind (follows_expect (by decide) (viable_anyExpr.mul viable)) fun _ _ _ => ?_
  exact .bind (expressing.follows viable others) fun _ _ _ => .pure

theorem follows_clause (expressing : Expressing expression) (blocking : Blocking block)
    (viable : Viable after) (others : Starts Outside after) :
    Follows (anyStmt * after) (fun _ => after) stop tokens
      (Tree.clause expression block stop tokens) := by
  have second := second_iff stop tokens (show Kind.assign ≠ .eof by decide)
  rw [Tree.clause, peekSecond_bind]
  by_cases assigned : (ahead stop tokens.tail).kind = .assign
  · rw [if_pos (second.mpr assigned)]
    exact follows_attr expressing viable others assigned
  · rw [if_neg fun seen => assigned (second.mp seen)]
    exact blocking viable assigned

theorem follows_statement (expressing : Expressing expression) (blocking : Blocking block)
    (viable : Viable after) (others : Starts (EndsLine closing) after)
    (outside : Starts Outside after) :
    Follows (anyStmt * after) (fun _ => after) stop tokens
      (Tree.statement expression block closing stop tokens) := by
  rw [Tree.statement]
  refine .bind (follows_clause expressing blocking viable outside) fun tree rest _ => ?_
  rw [peek_bind]
  split
  next => exact .pure
  next goes =>
    cases rest with
    | nil => exact absurd (.inr (.inl rfl)) goes
    | cons token rest =>
        have fails : ¬EndsLine closing token.kind := fun ends => goes (ends.imp_right .inr)
        exact .failWith viable (others.unmet fails)

/-! ### Bodies -/

/-- Nothing more is read of a body where a token of this kind is ahead. -/
def Closes (closing : Option Kind) (kind : Kind) : Prop :=
  kind = .eof ∨ some kind = closing

/-- What stands behind a body begins with the mark that closes it, which can only be a brace. -/
structure Ending (closing : Option Kind) (after : Language Kind) : Prop where
  viable : Viable after
  starts : Starts (fun kind => some kind = closing) after
  brace : ∀ kind, some kind = closing → kind = .rightBrace

/-- What may be left of a body, by the token ahead: what follows the body, newlines and then more of
the body, or a statement. -/
structure Enters (closing : Option Kind) (after language : Language Kind) (stop : Position)
    (tokens : List Token) : Prop where
  closes : Closes closing (ahead stop tokens).kind → Leads language [] tokens after
  line : (ahead stop tokens).kind = .newline →
    Leads language [] tokens (someLines * (statements anyStmt * after))
  item : ¬Closes closing (ahead stop tokens).kind → (ahead stop tokens).kind ≠ .newline →
    Leads language [] tokens (anyStmt * (following anyStmt * after))

theorem Enters.narrow {middle : Language Kind} (leads : Leads language [] tokens middle)
    (enters : Enters closing after middle stop tokens) :
    Enters closing after language stop tokens := by
  constructor
  · exact fun closes => leads.trans (enters.closes closes)
  · exact fun line => leads.trans (enters.line line)
  · exact fun goes other => leads.trans (enters.item goes other)

theorem following_mul (after : Language Kind) :
    following anyStmt * after = after + someLines * (statements anyStmt * after) := by
  rw [following_eq, optional_mul, mul_assoc]

theorem statements_mul (after : Language Kind) :
    statements anyStmt * after = after + anyStmt * (following anyStmt * after) := by
  rw [statements, optional_mul, mul_assoc]

theorem body_mul (after : Language Kind) :
    body anyStmt * after =
      statements anyStmt * after + someLines * (statements anyStmt * after) := by
  rw [body_eq, lines_eq, add_mul, add_mul, one_mul, mul_assoc]

theorem ending_document : Ending none 1 :=
  ⟨viable_one, starts_one, nofun⟩

theorem ending_block (viable : Viable after) :
    Ending (some .rightBrace) (mark .rightBrace * after) := by
  refine ⟨(viable_mark _).mul viable, ?_, fun _ => Option.some.inj⟩
  exact begins_mark_self.mul.starts.imp fun _ => congrArg some

/-- The token ahead neither closes the body nor ends the document. -/
theorem eq_cons_of_goes (goes : ¬Closes closing (ahead stop tokens).kind) :
    ∃ token rest, tokens = token :: rest ∧ some token.kind ≠ closing := by
  cases tokens with
  | nil => exact absurd (.inl rfl) goes
  | cons token rest => exact ⟨token, rest, rfl, fun same => goes (.inr same)⟩

namespace Ending

theorem not_line {kind : Kind} (ending : Ending closing after) (line : kind = .newline) :
    ¬Closes closing kind := by
  subst line
  rintro (eof | closes)
  · cases eof
  · cases ending.brace _ closes

theorem not_name {kind : Kind} (ending : Ending closing after)
    (named : ∃ name, kind = .ident name) : ¬Closes closing kind := by
  obtain ⟨name, rfl⟩ := named
  rintro (eof | closes)
  · cases eof
  · cases ending.brace _ closes

/-- What stands behind a body does not begin with a token that goes on with it. -/
theorem unmet (stop : Position) (ending : Ending closing after)
    (goes : ¬Closes closing (ahead stop tokens).kind) : Unmet after tokens := by
  obtain ⟨token, rest, rfl, other⟩ := eq_cons_of_goes goes
  exact ending.starts.unmet other

theorem starts_following {test : Kind → Prop} (ending : Ending closing after)
    (line : test .newline) (closes : ∀ kind, some kind = closing → test kind) :
    Starts test (following anyStmt * after) := by
  rw [following_mul]
  exact .add (ending.starts.imp closes) (begins_mark line).mul.mul.starts

theorem viable_following (ending : Ending closing after) :
    Viable (following anyStmt * after) := by
  rw [following_mul]
  exact ending.viable.left

theorem starts_statements (ending : Ending closing after) :
    Starts (· ≠ .newline) (statements anyStmt * after) := by
  rw [statements_mul]
  refine .add (ending.starts.imp ?_) (begins_anyStmt.mul.starts.imp ?_)
  · exact fun kind closes line => ending.not_line line (.inr closes)
  · rintro _ ⟨name, is⟩ rfl
    cases is

/-- Behind a statement newlines or the end of the body come next. -/
theorem enters_following (ending : Ending closing after)
    (ends : Tree.EndsStatement closing (ahead stop tokens).kind) :
    Enters closing after (following anyStmt * after) stop tokens := by
  rw [following_mul]
  constructor
  · intro closes
    exact .left (begins_mark_self.mul.mul.unmet stop fun line => ending.not_line line closes)
  · exact fun line => .right (ending.unmet stop (ending.not_line line))
  · exact fun goes other => absurd ends (not_or.mpr ⟨other, goes⟩)

/-- Behind newlines a statement or the end of the body comes next. -/
theorem enters_statements (ending : Ending closing after)
    (other : (ahead stop tokens).kind ≠ .newline) :
    Enters closing after (statements anyStmt * after) stop tokens := by
  rw [statements_mul]
  constructor
  · intro closes
    exact .left (begins_anyStmt.mul.unmet stop fun named => ending.not_name named closes)
  · exact fun line => absurd line other
  · exact fun goes _ => .right (ending.unmet stop goes)

theorem enters_body (ending : Ending closing after) :
    Enters closing after (body anyStmt * after) stop tokens := by
  rw [body_mul]
  by_cases line : (ahead stop tokens).kind = .newline
  · obtain ⟨token, rest, rfl, is⟩ := eq_cons_of_kind line (by decide)
    have goes := ending.not_line line
    have leads : Leads (statements anyStmt * after + someLines * (statements anyStmt * after)) []
        (token :: rest) (someLines * (statements anyStmt * after)) :=
      .right (ending.starts_statements.unmet fun other => other is)
    exact ⟨fun closes => absurd closes goes, fun _ => leads, fun _ other => absurd line other⟩
  · exact .narrow (.left (begins_mark_self.mul.mul.unmet stop line)) (ending.enters_statements line)

end Ending

theorem ahead_of_past (stop : Position) {rest : List Token} (past : PastNewlines rest) :
    (ahead stop rest).kind ≠ .newline := by
  intro line
  obtain ⟨token, others, rfl, is⟩ := eq_cons_of_kind line (by decide)
  exact past token rfl is

theorem Enters.follows_lines (ending : Ending closing after)
    (enters : Enters closing after language stop tokens)
    (line : (ahead stop tokens).kind = .newline) :
    Follows language (fun _ => statements anyStmt * after) stop tokens (newLines stop tokens) :=
  .narrow (enters.line line) (follows_someLines ending.starts_statements line)

theorem Enters.follows_statement (blocking : Blocking (Tree.block depth))
    (ending : Ending closing after) (enters : Enters closing after language stop tokens)
    (goes : ¬Closes closing (ahead stop tokens).kind)
    (other : (ahead stop tokens).kind ≠ .newline) :
    Follows language (fun _ => following anyStmt * after) stop tokens
      (Tree.statement (Tree.expression depth) (Tree.block depth) closing stop tokens) := by
  have ends : Starts (EndsLine closing) (following anyStmt * after) :=
    ending.starts_following (.inl rfl) fun _ => .inr
  have outside : Starts Outside (following anyStmt * after) := by
    refine ending.starts_following rfl fun kind closes => ?_
    obtain rfl := ending.brace kind closes
    rfl
  apply Follows.narrow (enters.item goes other)
  exact Ebnf.follows_statement (expressing_expression depth) blocking ending.viable_following ends
    outside

/-- Newlines or a statement lead to what is left of the body. -/
theorem follows_item (blocking : Blocking (Tree.block depth)) (ending : Ending closing after)
    (enters : Enters closing after language stop tokens)
    (goes : ¬Closes closing (ahead stop tokens).kind) :
    ∃ left, Follows language (fun _ => left) stop tokens
        (Tree.item (Tree.expression depth) (Tree.block depth) closing (ahead stop tokens).kind stop
          tokens) ∧
      ∀ trees rest, Tree.item (Tree.expression depth) (Tree.block depth) closing
        (ahead stop tokens).kind stop tokens = .done trees rest →
          Enters closing after left stop rest := by
  -- The token ahead tells whether newlines or a statement are read, and so what is left.
  unfold Tree.item
  split
  next line =>
    refine ⟨_, enters.follows_lines ending line, fun trees rest read => ?_⟩
    obtain ⟨_, _, _, _, past⟩ := newLines_done read
    exact ending.enters_statements (ahead_of_past stop past)
  next other =>
    refine ⟨_, follows_alone (enters.follows_statement blocking ending goes other), ?_⟩
    intro trees rest read
    obtain ⟨tree, single, rfl⟩ := Tree.alone_done_iff.mp read
    obtain ⟨_, _, _, ends⟩ :=
      Tree.statement_done (Tree.expression_reads depth) (Tree.block_reads depth) single
    exact ending.enters_following ends

theorem item_shorter {trees : List Tree} {rest : List Token}
    (read : Tree.item (Tree.expression depth) (Tree.block depth) closing (ahead stop tokens).kind
      stop tokens = .done trees rest) : rest.length < tokens.length :=
  Tree.item_length (Tree.expression_reads depth) (Tree.block_reads depth)
    (Grammar.Block.named depth) read

/-! ### Blocks -/

theorem follows_blockItems (blocking : Blocking (Tree.block depth)) (viable : Viable after)
    (bound : List Token)
    (enters : Enters (some .rightBrace) (mark .rightBrace * after) language stop tokens)
    (enough : tokens.length < bound.length) :
    Follows language (fun _ => mark .rightBrace * after) stop tokens
      (Tree.blockItems (Tree.expression depth) (Tree.block depth) bound stop tokens) := by
  induction bound generalizing tokens language with
  | nil => exact absurd enough (Nat.not_lt_zero _)
  | cons _ bound ih =>
      rw [List.length_cons] at enough
      rw [Tree.blockItems, peek_bind]
      split
      next ends => exact .narrow (enters.closes (ends.symm.imp_right (congrArg some))) .pure
      next goes =>
        obtain ⟨left, follows, next⟩ := follows_item blocking (ending_block viable) enters
          fun closes => goes (closes.symm.imp_left Option.some.inj)
        refine .bind follows fun trees rest read => ?_
        have shorter := item_shorter read
        exact .bind (ih (next trees rest read) (by omega)) fun _ _ _ => .pure

theorem follows_labelledBlock (blocking : Blocking (Tree.block depth)) :
    Blocking (Tree.labelledBlock (Tree.expression depth) (Tree.block depth)) := by
  intro after stop tokens viable unassigned
  have ending : Viable (body anyStmt * (mark .rightBrace * after)) := by
    rw [body_mul, statements_mul]
    exact ((viable_mark _).mul viable).left.left
  have opened : Viable (mark .leftBrace * (body anyStmt * (mark .rightBrace * after))) :=
    (viable_mark _).mul ending
  rw [Tree.labelledBlock, peek_bind, anyStmt_mul]
  refine .bind (follows_identifier ?_) fun name left read => ?_
  · rw [add_comm]
    exact ((viable_star _).mul opened).left
  obtain ⟨token, _, rfl, _⟩ := identifier_done read
  refine .narrow (.right (begins_mark_self.mul.unmet stop unassigned)) ?_
  refine .bind (follows_labels ?_) fun labels rest _ => ?_
  · exact (begins_mark (by simp [IsKey])).mul.starts
  refine .bind (follows_expect (by decide) ending) fun _ inside _ => ?_
  rw [peek_bind]
  refine .bind (follows_blockItems blocking viable _ (ending_block viable).enters_body
    (Nat.lt_succ_self _)) fun items rest _ => ?_
  exact .bind (follows_expect (by decide) viable) fun _ _ _ => .pure

/-- Whatever limit there is on nesting, a block is read as one without. -/
theorem blocking_block (depth : Nat) : Blocking (Tree.block depth) := by
  induction depth with
  | zero => exact fun _ _ => .tooDeep
  | succ depth ih => exact follows_labelledBlock ih

/-! ### Documents -/

theorem items_blames (bound : List Token) {fault : Fault} {faults : List Fault}
    (enters : Enters none 1 language stop tokens) (enough : tokens.length ≤ bound.length)
    (inside : ∀ token ∈ tokens, token.kind ≠ .eof)
    (refused : (Tree.items stop bound tokens).faults = fault :: faults) :
    Blames language stop tokens fault := by
  -- Up to the first fault nothing is skipped, so that the language is that of the items before.
  induction bound generalizing tokens language with
  | nil => cases refused
  | cons _ bound ih =>
      cases tokens with
      | nil => cases refused
      | cons token tokens =>
          have goes : ¬Closes none token.kind := by
            rintro (eof | closes)
            · exact inside token List.mem_cons_self eof
            · cases closes
          obtain ⟨left, follows, next⟩ :=
            follows_item (blocking_block Tree.maxNesting) ending_document enters goes
          rw [ahead_cons] at follows next
          rw [Tree.items, if_neg fun eof => goes (.inl eof)] at refused
          cases read : Tree.item (Tree.expression Tree.maxNesting) (Tree.block Tree.maxNesting) none
              token.kind stop (token :: tokens) with
          | failed first rest =>
              rw [read] at follows refused
              obtain ⟨rfl, -⟩ := List.cons.inj refused
              cases follows with
              | failed blames => exact blames
          | done trees rest =>
              have shorter : rest.length < (token :: tokens).length := item_shorter read
              have entered := next trees rest read
              rw [read] at follows refused
              simp only [List.length_cons] at enough shorter
              cases follows with
              | @done _ used _ whole leads =>
                  rw [whole] at inside ⊢
                  refine .behind leads (ih entered (by omega) ?_ refused)
                  exact fun token member => inside token (List.mem_append_right used member)

/-- A document without a limit on nesting is what its tokens are read against. -/
theorem ofTokens_blames {last : Token} {fault : Fault} {faults : List Fault}
    (inside : ∀ token ∈ tokens, token.kind ≠ .eof) (ends : last.kind = .eof)
    (refused : Tree.ofTokens (tokens ++ [last]) = .error (fault :: faults)) :
    Blames anyDocument last.place tokens fault := by
  have found : (Tree.items last.place tokens tokens).faults = fault :: faults := by
    unfold Tree.ofTokens at refused
    rw [Tree.splitEnd_append ends] at refused
    dsimp only at refused
    split at refused
    next => cases refused
    next => exact Except.error.inj refused
  have entered : Enters none 1 anyDocument last.place tokens := by
    rw [← mul_one anyDocument]
    exact ending_document.enters_body
  exact items_blames tokens entered (Nat.le_refl _) inside found

end Statements

end Ebnf

/-- The first fault of a document is at the first token that offends, unless it is that expressions
or blocks are nested too deep. The tokens before that token can be continued to a document, however
deep it may be nested, and no document continues those up to it. Where it is the end token, the
tokens before it are no document. -/
theorem Tree.ofTokens_first_fault {tokens : List Token} {last : Token} {fault : Fault}
    {faults : List Fault} (inside : ∀ token ∈ tokens, token.kind ≠ .eof) (ends : last.kind = .eof)
    (refused : Tree.ofTokens (tokens ++ [last]) = .error (fault :: faults))
    (shallow : fault.cause.code ≠ .nestedTooDeep) :
    ∃ before token behind, tokens ++ [last] = before ++ token :: behind ∧
      fault.place = token.place ∧
      (∃ depth word, before.map Token.kind ++ word ∈ Ebnf.document depth) ∧
      (token.kind ≠ .eof → ∀ depth word,
        before.map Token.kind ++ token.kind :: word ∉ Ebnf.document depth) ∧
      (token.kind = .eof → ∀ depth, before.map Token.kind ∉ Ebnf.document depth) := by
  cases Ebnf.ofTokens_blames inside ends refused with
  | tooDeep deep =>
      rw [deep] at shallow
      exact absurd rfl shallow
  | @offends used rest whole place offends =>
      subst whole
      obtain ⟨word, continues⟩ := offends.viable
      obtain ⟨depth, continued⟩ := Ebnf.mem_anyDocument.mp continues
      cases rest with
      | nil =>
          refine ⟨used, last, [], by simp, place, ⟨depth, word, continued⟩, ?_, ?_⟩
          · exact fun inner => absurd ends inner
          · intro _ depth accepted
            refine offends.offending [] rfl (Ebnf.mem_anyDocument.mpr ⟨depth, ?_⟩)
            rwa [List.append_nil]
      | cons token rest =>
          have inner : token.kind ≠ .eof :=
            inside token (List.mem_append_right used List.mem_cons_self)
          refine ⟨used, token, rest ++ [last], by simp, place, ⟨depth, word, continued⟩, ?_, ?_⟩
          · intro _ depth behind accepted
            have whole := Ebnf.mem_anyDocument.mpr ⟨depth, accepted⟩
            exact offends.offending (token.kind :: behind) rfl whole
          · exact fun eof => absurd eof inner

/-- In `a = [b c]` the second name offends. That the next line is at fault too does not matter. -/
theorem Tree.ofTokens_first_fault_tuple :
    let tokens : List Token := [⟨.ident "a", ⟨1, 1⟩⟩, ⟨.assign, ⟨1, 3⟩⟩, ⟨.leftBracket, ⟨1, 5⟩⟩,
      ⟨.ident "b", ⟨1, 6⟩⟩, ⟨.ident "c", ⟨1, 8⟩⟩, ⟨.rightBracket, ⟨1, 9⟩⟩, ⟨.newline, ⟨1, 10⟩⟩,
      ⟨.assign, ⟨2, 1⟩⟩]
    let fault : Fault := ⟨⟨1, 8⟩, .missing .rightBracket (.ident "c")⟩
    ofTokens (tokens ++ [⟨.eof, ⟨2, 2⟩⟩]) = .error [fault, ⟨⟨2, 1⟩, .noIdentifier⟩] ∧
      ∃ before token behind, tokens ++ [⟨.eof, ⟨2, 2⟩⟩] = before ++ token :: behind ∧
        fault.place = token.place ∧
        (∃ depth word, before.map Token.kind ++ word ∈ Ebnf.document depth) ∧
        (token.kind ≠ .eof → ∀ depth word,
          before.map Token.kind ++ token.kind :: word ∉ Ebnf.document depth) ∧
        (token.kind = .eof → ∀ depth, before.map Token.kind ∉ Ebnf.document depth) := by
  intro tokens fault
  have refused : ofTokens (tokens ++ [⟨.eof, ⟨2, 2⟩⟩]) =
      .error [fault, ⟨⟨2, 1⟩, .noIdentifier⟩] := rfl
  exact ⟨refused, ofTokens_first_fault (by decide) rfl refused (by decide)⟩

end ConfigLang
