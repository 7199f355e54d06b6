import ConfigLang.Proofs.Residual
/-!
What may follow the tokens that a reader of expressions has taken. Each choice of a reader is made
by the one or two tokens ahead, and the alternatives that it gives up do not begin with them.
-/

set_option autoImplicit false

namespace ConfigLang.Ebnf

open Reader

open scoped Computability

/-! ### How productions go on -/

/-- After one item there may be a comma, and then more items or none. -/
theorem items_eq (value : Language Kind) :
    items value = value * (lines * optional (mark .comma * (lines * optional (items value)))) := by
  have more : ∀ next : Language Kind, (mark .comma * (lines * (value * lines)))∗ * next =
      next + mark .comma * (lines * (value * (lines *
        ((mark .comma * (lines * (value * lines)))∗ * next)))) := by
    intro next
    nth_rewrite 1 [star_mul]
    simp only [mul_assoc]
  rw [items]
  nth_rewrite 1 [more]
  simp only [optional, mul_add, mul_one, add_assoc]

/-- After one element there may be a separator, and then more elements or none. -/
theorem elems_eq (value : Language Kind) :
    elems value = optional (elem value * optional (sep * elems value)) := by
  have more : ∀ next : Language Kind, (sep * elem value)∗ * next =
      next + sep * (elem value * ((sep * elem value)∗ * next)) := by
    intro next
    nth_rewrite 1 [star_mul]
    simp only [mul_assoc]
  rw [elems]
  nth_rewrite 1 [more]
  simp only [optional, mul_add, mul_one, add_assoc]

/-! ### How productions begin -/

theorem begins_enclosed {test : Kind → Prop} {opening closing : Kind} {inner : Language Kind}
    (passes : test opening) : Begins test (enclosed opening inner closing) :=
  (begins_mark passes).mul

theorem begins_primary (value : Language Kind) :
    Begins (fun kind => Grammar.opensTerm kind = true) (primary value) := by
  have name : Begins (fun kind => Grammar.opensTerm kind = true) ident :=
    begins_terminal (by rintro _ ⟨name, rfl⟩; rfl)
  refine .add (begins_terminal (by rintro _ ⟨value, rfl⟩; rfl)) ?_
  refine .add (begins_terminal (by rintro _ ⟨value, rfl⟩; rfl)) ?_
  refine .add (begins_terminal (by rintro _ ⟨contents, rfl⟩; rfl)) ?_
  refine .add name (.add (begins_enclosed rfl) (.add name.mul ?_))
  exact .add (begins_enclosed rfl) (begins_enclosed rfl)

theorem begins_anyExpr : Begins (fun kind => Grammar.opensExpr kind = true) anyExpr := by
  have term := (begins_primary anyExpr).imp fun _ => Grammar.opensExpr_of_opensTerm
  rw [anyExpr_eq, operation, operand, optional_mul]
  refine Begins.mul (.add term.mul (.mul (.add ?_ ?_)))
  · exact begins_mark rfl
  · exact begins_mark rfl

theorem viable_primary {value : Language Kind} : Viable (primary value) :=
  ⟨[.int 0], .inl ⟨.int 0, rfl, 0, rfl⟩⟩

theorem viable_anyExpr : Viable anyExpr := by
  rw [anyExpr_eq]
  exact ((viable_optional _).mul (viable_primary.mul (viable_star _))).mul (viable_optional _)

theorem ne_of_opens {kind other : Kind} (outside : Grammar.opensExpr other = false)
    (opens : Grammar.opensExpr kind = true) : kind ≠ other := by
  rintro rfl
  rw [outside] at opens
  cases opens

/-- No expression begins with a kind that does not open one. -/
theorem starts_anyExpr {kind : Kind} (other : Grammar.opensExpr kind = false)
    (after : Language Kind) : Starts (· ≠ kind) (anyExpr * after) :=
  begins_anyExpr.mul.starts.imp fun _ => ne_of_opens other

/-! ### Expressions -/

/-- The kinds that do not go on with an expression. -/
def Outside (kind : Kind) : Prop :=
  Tree.extendsExpr kind = false

/-- A reader of expressions, which always takes a token. It needs to know that what stands behind
an expression does not begin as if it belonged to it. -/
structure Expressing (expression : Reader Tree) : Prop where
  follows : ∀ {after : Language Kind} {stop : Position} {tokens : List Token}, Viable after →
    Starts Outside after →
    Follows (anyExpr * after) (fun _ => after) stop tokens (expression stop tokens)
  takes : ∀ {stop : Position} {tokens rest : List Token} {tree : Tree},
    expression stop tokens = .done tree rest → rest.length < tokens.length

section Expressions

variable {expression : Reader Tree} {after : Language Kind} {stop : Position} {tokens : List Token}

theorem follows_alone {reader : Reader Tree} {language : Language Kind}
    (follows : Follows language (fun _ => after) stop tokens (reader stop tokens)) :
    Follows language (fun _ => after) stop tokens (Tree.alone reader stop tokens) :=
  .bind follows fun _ _ _ => .pure

/-! ### Collections -/

/-- What follows an item up to the end mark of a collection. -/
def separated (closing : Kind) (after : Language Kind) : Language Kind :=
  mark closing * after + mark .comma * (lines * (optional (items anyExpr) * (mark closing * after)))

theorem items_mul (closing : Kind) :
    items anyExpr * (mark closing * after) = anyExpr * (lines * separated closing after) := by
  nth_rewrite 1 [items_eq]
  simp only [separated, optional, mul_assoc, add_mul, mul_add, one_mul, mul_one]

theorem starts_separated {test : Kind → Prop} {closing : Kind} (closes : test closing)
    (comma : test .comma) : Starts test (separated closing after) :=
  .add (begins_mark closes).mul.starts (begins_mark comma).mul.starts

theorem viable_separated {closing : Kind} (viable : Viable after) :
    Viable (separated closing after) :=
  ((viable_mark closing).mul viable).left

/-- An item with the newlines behind it, and then a comma or what ends the collection. -/
theorem follows_separated {closing : Kind} (expressing : Expressing expression)
    (viable : Viable after) (closes : Outside closing)
    (differs : closing ≠ .newline ∧ closing ≠ .comma)
    {next : Tree → List Tree → Bool → Reader (List Tree)}
    (goes : ∀ tree trail rest, rest.length < tokens.length →
      Follows (lines * (optional (items anyExpr) * (mark closing * after)))
        (fun _ => mark closing * after) stop rest (next tree trail true stop rest))
    (ends : ∀ tree trail rest, Follows (mark closing * after) (fun _ => mark closing * after) stop
      rest (next tree trail false stop rest)) :
    Follows (items anyExpr * (mark closing * after)) (fun _ => mark closing * after) stop tokens
      ((do
        let value ← expression
        let trail ← newLines
        let comma ← accept .comma
        next value trail comma : Reader (List Tree)) stop tokens) := by
  rw [items_mul]
  refine .bind (expressing.follows ?_ ?_) fun tree left read => ?_
  · exact (viable_star _).mul (viable_separated viable)
  · exact .mul (starts_lines rfl) (starts_separated closes rfl)
  have taken := expressing.takes read
  refine .bind (follows_lines ?_) fun trail behind between => ?_
  · exact starts_separated differs.1 (by decide)
  have trailing := newLines_length between
  refine .bind (follows_accept (by decide) ?_) fun comma rest accepted => ?_
  · exact (begins_mark_ne differs.2).mul.starts
  have separating := accept_length (by decide) accepted
  cases comma with
  | true => exact goes tree trail rest (by omega)
  | false => exact ends tree trail rest

/-- More items or none, up to the end mark. -/
theorem starts_items {test : Kind → Prop} {closing : Kind}
    (opens : ∀ kind, Grammar.opensExpr kind = true → test kind) (closes : test closing) :
    Starts test (optional (items anyExpr) * (mark closing * after)) :=
  (begins_anyExpr.imp opens).mul.starts.optional.mul (begins_mark closes).mul.starts

/-- No item is left where the end mark is ahead. -/
theorem leads_closing {closing : Kind} (other : Grammar.opensExpr closing = false)
    (closes : (ahead stop tokens).kind = closing) :
    Leads (optional (items anyExpr) * (mark closing * after)) [] tokens (mark closing * after) := by
  have unopened : ¬Grammar.opensExpr (ahead stop tokens).kind = true := by
    rw [closes, other]
    exact Bool.false_ne_true
  rw [optional_mul]
  exact .left (begins_anyExpr.mul.mul.unmet stop unopened)

theorem leads_items {closing : Kind} (goes : (ahead stop tokens).kind ≠ closing) :
    Leads (optional (items anyExpr) * (mark closing * after)) [] tokens
      (items anyExpr * (mark closing * after)) := by
  rw [optional_mul]
  exact .right (begins_mark_self.mul.unmet stop goes)

theorem follows_tupleItems (expressing : Expressing expression) (viable : Viable after)
    (bound : List Token) (enough : tokens.length < bound.length) :
    Follows (lines * (optional (items anyExpr) * (mark .rightBracket * after)))
      (fun _ => mark .rightBracket * after) stop tokens
      (Tree.tupleItems expression bound stop tokens) := by
  -- On the bound of the loop, which lasts because each round takes an item.
  induction bound generalizing tokens with
  | nil => exact absurd enough (Nat.not_lt_zero _)
  | cons _ bound ih =>
      rw [List.length_cons] at enough
      rw [Tree.tupleItems]
      refine .bind (follows_lines ?_) fun lead left before => ?_
      · exact starts_items (fun _ => ne_of_opens rfl) (by decide)
      have leading := newLines_length before
      rw [sees_bind]
      by_cases closes : (ahead stop left).kind = .rightBracket
      · simp only [closes, decide_true, ↓reduceIte]
        exact .narrow (leads_closing rfl closes) .pure
      · simp only [closes, decide_false, Bool.false_eq_true, ↓reduceIte]
        refine .narrow (leads_items closes) ?_
        refine follows_separated expressing viable ?_ (by decide) ?_ fun _ _ _ => .pure
        · exact rfl
        · intro tree trail rest shorter
          exact .bind (ih (by omega)) fun _ _ _ => .pure

theorem follows_tuple (expressing : Expressing expression) (viable : Viable after) :
    Follows (tuple anyExpr * after) (fun _ => after) stop tokens
      (Tree.tuple expression stop tokens) := by
  rw [Tree.tuple, tuple, enclosed, mul_assoc, mul_assoc, mul_assoc]
  refine .bind (follows_expect (by decide) ?_) fun opening left _ => ?_
  · exact (viable_star _).mul ((viable_optional _).mul ((viable_mark _).mul viable))
  refine .bind (follows_tupleItems expressing viable _ (Nat.lt_succ_self _)) fun trees rest _ => ?_
  exact .bind (follows_expect (by decide) viable) fun _ _ _ => .pure

theorem follows_callItems (expressing : Expressing expression) (viable : Viable after)
    (bound : List Token) (enough : tokens.length < bound.length) :
    Follows (items anyExpr * (mark .rightParen * after)) (fun _ => mark .rightParen * after) stop
      tokens (Tree.callItems expression bound stop tokens) := by
  induction bound generalizing tokens with
  | nil => exact absurd enough (Nat.not_lt_zero _)
  | cons _ bound ih =>
      rw [List.length_cons] at enough
      rw [Tree.callItems]
      refine follows_separated expressing viable ?_ (by decide) ?_ fun _ _ _ => .pure
      · exact rfl
      intro tree trail rest shorter
      refine .bind (follows_lines ?_) fun lead left before => ?_
      · exact starts_items (fun _ => ne_of_opens rfl) (by decide)
      have leading := newLines_length before
      rw [sees_bind]
      by_cases closes : (ahead stop left).kind = .rightParen
      · simp only [closes, decide_true, ↓reduceIte]
        exact .narrow (leads_closing rfl closes) .pure
      · simp only [closes, decide_false, Bool.false_eq_true, ↓reduceIte]
        refine .narrow (leads_items closes) ?_
        exact .bind (ih (by omega)) fun _ _ _ => .pure

theorem follows_callArguments (expressing : Expressing expression) (viable : Viable after) :
    Follows (optional (items anyExpr) * (mark .rightParen * after))
      (fun _ => mark .rightParen * after) stop tokens
      (Tree.callArguments expression stop tokens) := by
  rw [Tree.callArguments, peek_bind]
  by_cases closes : (ahead stop tokens).kind = .rightParen
  · simp only [closes, ↓reduceIte]
    exact .narrow (leads_closing rfl closes) .pure
  · simp only [closes, ↓reduceIte]
    refine .narrow (leads_items closes) ?_
    exact .bind (follows_callItems expressing viable _ (Nat.lt_succ_self _)) fun _ _ _ => .pure

/-- The arguments of a call in parentheses. -/
theorem follows_call (expressing : Expressing expression) (viable : Viable after)
    (others : Starts (· ≠ .leftParen) after) (called : (ahead stop tokens.tail).kind = .leftParen) :
    Follows (ident * (after + enclosed .leftParen (optional (items anyExpr)) .rightParen * after))
      (fun _ => after) stop tokens (Tree.call expression stop tokens) := by
  rw [Tree.call, peek_bind]
  refine .bind (follows_identifier viable.left) fun name left read => ?_
  obtain ⟨token, _, rfl, _⟩ := identifier_done read
  -- What follows a name that stands alone does not begin with the parenthesis that was seen.
  obtain ⟨opening, rest, rfl, opens⟩ := eq_cons_of_kind called (by decide)
  refine .narrow (.right (others.unmet fun differs => differs opens)) ?_
  rw [enclosed, mul_assoc, mul_assoc, mul_assoc]
  refine .bind (follows_expect (by decide) ?_) fun _ left _ => ?_
  · exact (viable_star _).mul ((viable_optional _).mul ((viable_mark _).mul viable))
  refine .bind (follows_lines ?_) fun lead behind _ => ?_
  · exact starts_items (fun _ => ne_of_opens rfl) (by decide)
  refine .bind (follows_callArguments expressing viable) fun arguments rest _ => ?_
  exact .bind (follows_expect (by decide) viable) fun _ _ _ => .pure

/-- The second token is seen as the one ahead behind the first. -/
theorem second_iff (stop : Position) (tokens : List Token) {kind : Kind} (inner : kind ≠ .eof) :
    tokens.tail.head?.map Token.kind = some kind ↔ (ahead stop tokens.tail).kind = kind := by
  cases tokens.tail with
  | nil => exact ⟨nofun, fun eof => absurd eof.symm inner⟩
  | cons token rest => exact Option.some_inj

theorem follows_named (expressing : Expressing expression) (viable : Viable after)
    (others : Starts (· ≠ .leftParen) after) :
    Follows (ident * (after + enclosed .leftParen (optional (items anyExpr)) .rightParen * after))
      (fun _ => after) stop tokens (Tree.named expression stop tokens) := by
  have second := second_iff stop tokens (show Kind.leftParen ≠ .eof by decide)
  rw [Tree.named, peekSecond_bind]
  by_cases called : (ahead stop tokens.tail).kind = .leftParen
  · rw [if_pos (second.mpr called)]
    exact follows_alone (follows_call expressing viable others called)
  · rw [if_neg fun seen => called (second.mp seen)]
    apply follows_alone
    -- Only behind the name do the two alternatives part.
    refine (follows_identifier viable.left).settle fun tree rest read => ?_
    obtain ⟨token, _, rfl, _⟩ := identifier_done read
    exact .left (begins_mark_self.mul.mul.unmet stop called)

/-! ### Objects -/

theorem begins_elem (value : Language Kind) : Begins IsKey (elem value) := by
  rw [elem, key_eq]
  exact (begins_terminal fun _ is => is).mul

theorem follows_objectKey (viable : Viable after) :
    Follows (key * after) (fun _ => after) stop tokens
      (Tree.objectKey (ahead stop tokens).kind stop tokens) := by
  rw [key_eq]
  cases tokens with
  | nil => exact .misses (.inl ⟨"", rfl⟩) viable (by simp [IsKey])
  | cons token rest =>
      rw [ahead_cons]
      cases is : token.kind with
      | ident name =>
          rw [Tree.objectKey, identifier_of_kind is]
          exact .took (.terminal (.inl ⟨name, is⟩))
      | string contents =>
          rw [Tree.objectKey, single_cons]
          exact .took (.terminal (.inr ⟨contents, is⟩))
      | _ => exact .misses (.inl ⟨"", rfl⟩) viable (by simp [IsKey, is])

theorem follows_objectAssignment (viable : Viable after) :
    Follows ((mark .assign + mark .colon) * after) (fun _ => after) stop tokens
      (Tree.objectAssignment stop tokens) := by
  rw [marks_eq, Tree.objectAssignment, peek_bind]
  by_cases sign : (ahead stop tokens).kind = .assign ∨ (ahead stop tokens).kind = .colon
  · rw [if_pos sign]
    cases tokens with
    | nil => exact absurd sign (by simp)
    | cons token rest => exact .took (.terminal sign)
  · rw [if_neg sign]
    exact .misses (.inl rfl) viable sign

theorem follows_objectElement (expressing : Expressing expression) (viable : Viable after)
    (others : Starts Outside after) :
    Follows (elem anyExpr * after) (fun _ => after) stop tokens
      (Tree.objectElement expression stop tokens) := by
  have value := viable_anyExpr.mul viable
  rw [Tree.objectElement, peek_bind, elem, mul_assoc, mul_assoc]
  refine .bind (follows_objectKey ((viable_mark _).left.mul value)) fun key left _ => ?_
  refine .bind (follows_objectAssignment value) fun _ behind _ => ?_
  exact .bind (expressing.follows viable others) fun _ _ _ => .pure

/-- What follows an element up to the end of an object: the end mark, newlines or a comma. -/
def separatedElems (after : Language Kind) : Language Kind :=
  after + someLines * (elems anyExpr * after) + mark .comma * (lines * (elems anyExpr * after))

theorem elems_mul : elems anyExpr * after = after + elem anyExpr * separatedElems after := by
  nth_rewrite 1 [elems_eq]
  rw [optional_mul, mul_assoc, optional_mul, sep]
  simp only [separatedElems, add_mul, mul_assoc]
  rw [add_comm (mark .comma * _), add_assoc]

theorem starts_elems {test : Kind → Prop} (keys : ∀ kind, IsKey kind → test kind)
    (closes : test .rightBrace) :
    Starts test (elems anyExpr * (mark .rightBrace * after)) := by
  rw [elems_mul]
  exact .add (begins_mark closes).mul.starts ((begins_elem anyExpr).imp keys).mul.starts

theorem starts_separatedElems {test : Kind → Prop} (closes : test .rightBrace)
    (line : test .newline) (comma : test .comma) :
    Starts test (separatedElems (mark .rightBrace * after)) := by
  refine .add (.add ?_ ?_) ?_
  · exact (begins_mark closes).mul.starts
  · exact (begins_mark line).mul.mul.starts
  · exact (begins_mark comma).mul.starts

theorem ne_of_isKey {kind other : Kind} (outside : ¬IsKey other) (key : IsKey kind) :
    kind ≠ other := by
  rintro rfl
  exact outside key

theorem objectElement_length (expressing : Expressing expression) {rest : List Token}
    {element : Tree} (read : Tree.objectElement expression stop tokens = .done element rest) :
    rest.length < tokens.length := by
  simp only [Tree.objectElement, bind_eq_done_iff, peek_done_iff, pure_done_iff] at read
  obtain ⟨_, _, ⟨rfl, rfl⟩, _, _, named, _, _, assigned, _, _, value, _, rfl⟩ := read
  obtain ⟨_, rfl, _⟩ := Tree.objectKey_done named
  obtain ⟨_, rfl, _⟩ := Tree.objectAssignment_done assigned
  have taken := expressing.takes value
  simp only [List.length_cons]
  omega

/-- A comma, newlines, both or none, and then more elements or none. -/
theorem follows_separatedElems {bound : List Token} {element : Tree}
    (ih : ∀ {tokens : List Token}, tokens.length < bound.length →
      Follows (elems anyExpr * (mark .rightBrace * after)) (fun _ => mark .rightBrace * after) stop
        tokens (Tree.objectItems expression bound stop tokens))
    (enough : tokens.length < bound.length) :
    Follows (separatedElems (mark .rightBrace * after)) (fun _ => mark .rightBrace * after) stop
      tokens
      ((do
        let comma ← accept .comma
        let lines ← newLines
        if comma || !lines.isEmpty then
          let others ← Tree.objectItems expression bound
          return element :: lines ++ others
        else return element :: lines : Reader (List Tree)) stop tokens) := by
  have inline : Starts (· ≠ .newline) (elems anyExpr * (mark .rightBrace * after)) :=
    starts_elems (fun _ => ne_of_isKey (by simp [IsKey])) (by decide)
  refine .bind (follows_accept (by decide) ?_) fun comma left accepted => ?_
  · exact .add (begins_mark (by decide)).mul.starts (begins_mark (by decide)).mul.mul.starts
  have separating := accept_length (by decide) accepted
  cases comma with
  | true =>
      refine .bind (follows_lines inline) fun lines rest between => ?_
      have trailing := newLines_length between
      exact .bind (ih (by omega)) fun _ _ _ => .pure
  | false =>
      refine .bind (follows_newLines ?_ inline) fun lines rest between => ?_
      · exact (begins_mark (by decide)).mul.starts
      have trailing := newLines_length between
      cases lines with
      | nil => exact .pure
      | cons line lines => exact .bind (ih (by omega)) fun _ _ _ => .pure

theorem follows_objectItems (expressing : Expressing expression) (viable : Viable after)
    (bound : List Token) (enough : tokens.length < bound.length) :
    Follows (elems anyExpr * (mark .rightBrace * after)) (fun _ => mark .rightBrace * after) stop
      tokens (Tree.objectItems expression bound stop tokens) := by
  induction bound generalizing tokens with
  | nil => exact absurd enough (Nat.not_lt_zero _)
  | cons _ bound ih =>
      rw [List.length_cons] at enough
      rw [Tree.objectItems, peek_bind, elems_mul]
      by_cases ends : (ahead stop tokens).kind = .rightBrace ∨ (ahead stop tokens).kind = .eof
      · rw [if_pos ends]
        refine .narrow (.left ((begins_elem anyExpr).mul.unmet stop ?_)) .pure
        rcases ends with closes | eof
        · simp [closes, IsKey]
        · simp [eof, IsKey]
      · rw [if_neg ends]
        refine .narrow (.right (begins_mark_self.mul.unmet stop ?_)) ?_
        · exact fun closes => ends (.inl closes)
        refine .bind (follows_objectElement expressing ?_ ?_) fun element left item => ?_
        · exact ((viable_mark _).mul viable).left.left
        · exact starts_separatedElems rfl rfl rfl
        have taken := objectElement_length expressing item
        exact follows_separatedElems ih (by omega)

theorem follows_object (expressing : Expressing expression) (viable : Viable after) :
    Follows (object anyExpr * after) (fun _ => after) stop tokens
      (Tree.object expression stop tokens) := by
  rw [Tree.object, object, enclosed, mul_assoc, mul_assoc, mul_assoc]
  have ending : Viable (elems anyExpr * (mark .rightBrace * after)) := by
    rw [elems_mul]
    exact ((viable_mark _).mul viable).left
  refine .bind (follows_expect (by decide) ((viable_star _).mul ending)) fun opening left _ => ?_
  refine .bind (follows_lines ?_) fun lead behind _ => ?_
  · exact starts_elems (fun _ => ne_of_isKey (by simp [IsKey])) (by decide)
  refine .bind (follows_objectItems expressing viable _ (Nat.lt_succ_self _)) fun items rest _ => ?_
  exact .bind (follows_expect (by decide) viable) fun _ _ _ => .pure

/-! ### Terms -/

theorem follows_grouped {token : Token} {rest : List Token} (expressing : Expressing expression)
    (viable : Viable after) (opens : token.kind = .leftParen) :
    Follows (group anyExpr * after) (fun _ => after) stop (token :: rest)
      (Tree.grouped expression stop (token :: rest)) := by
  have line : Starts (· ≠ .newline) (mark .rightParen * after) :=
    (begins_mark (by decide)).mul.starts
  have ending : Viable (mark .rightParen * after) := (viable_mark _).mul viable
  rw [Tree.grouped, group, enclosed, mul_assoc, mul_assoc, mul_assoc, mul_assoc, advance_bind_cons]
  refine .next (.terminal opens) ?_
  refine .bind (follows_lines (starts_anyExpr rfl _)) fun lead left _ => ?_
  refine .bind (expressing.follows ((viable_star _).mul ending) ?_) fun value behind _ => ?_
  · exact .mul (starts_lines rfl) (begins_mark (show Outside .rightParen from rfl)).mul.starts
  refine .bind (follows_lines line) fun trail rest _ => ?_
  exact .bind (follows_expect (by decide) viable) fun _ _ _ => .pure

/-- The primaries that begin with a kind, before what follows them. -/
def branch (after : Language Kind) : Kind → Language Kind
  | .int _ => int * after
  | .float _ => float * after
  | .string _ => string * after
  | .ident _ =>
      ident * after + ident * (enclosed .leftParen (optional (items anyExpr)) .rightParen * after)
  | .leftParen => group anyExpr * after
  | .leftBracket => tuple anyExpr * after
  | .leftBrace => object anyExpr * after
  | _ => 0

theorem branch_ident (after : Language Kind) (name : String) :
    branch after (.ident name) =
      ident * (after + enclosed .leftParen (optional (items anyExpr)) .rightParen * after) :=
  (mul_add _ _ _).symm

theorem primary_mul (after : Language Kind) :
    primary anyExpr * after =
      int * after + (float * after + (string * after + (ident * after + (group anyExpr * after +
        (ident * (enclosed .leftParen (optional (items anyExpr)) .rightParen * after) +
          (tuple anyExpr * after + object anyExpr * after)))))) := by
  simp only [primary, call, add_mul, mul_assoc]

theorem branch_le (after : Language Kind) (kind : Kind) :
    branch after kind ≤ primary anyExpr * after := by
  intro word inside
  rw [primary_mul]
  cases kind with
  | int => exact .inl inside
  | float => exact .inr (.inl inside)
  | string => exact .inr (.inr (.inl inside))
  | ident =>
      rcases inside with name | call
      · exact .inr (.inr (.inr (.inl name)))
      · exact .inr (.inr (.inr (.inr (.inr (.inl call)))))
  | leftParen => exact .inr (.inr (.inr (.inr (.inl inside))))
  | leftBracket => exact .inr (.inr (.inr (.inr (.inr (.inr (.inl inside))))))
  | leftBrace => exact .inr (.inr (.inr (.inr (.inr (.inr (.inr inside))))))
  | _ => exact inside.elim

theorem mem_branch {kind : Kind} {word : List Kind}
    (inside : kind :: word ∈ primary anyExpr * after) : kind :: word ∈ branch after kind := by
  have terminal : ∀ {test : Kind → Prop} {more : Language Kind},
      kind :: word ∈ terminal test * more → test kind :=
    fun inside => (begins_terminal fun _ is => is).mul.starts _ _ inside
  have enclosed : ∀ {opening closing : Kind} {inner : Language Kind},
      kind :: word ∈ enclosed opening inner closing * after → kind = opening :=
    fun inside => begins_mark_self.mul.mul.starts _ _ inside
  rw [primary_mul] at inside
  rcases inside with int | float | string | name | group | call | tuple | object
  · obtain ⟨value, rfl⟩ := terminal int
    exact int
  · obtain ⟨value, rfl⟩ := terminal float
    exact float
  · obtain ⟨contents, rfl⟩ := terminal string
    exact string
  · obtain ⟨text, rfl⟩ := terminal name
    exact .inl name
  · obtain rfl := enclosed group
    exact group
  · obtain ⟨text, rfl⟩ := terminal call
    exact .inr call
  · obtain rfl := enclosed tuple
    exact tuple
  · obtain rfl := enclosed object
    exact object

/-- The token ahead tells the primary. -/
theorem leads_branch (after : Language Kind) (token : Token) (rest : List Token) :
    Leads (primary anyExpr * after) [] (token :: rest) (branch after token.kind) := by
  refine ⟨branch_le after token.kind, fun word meets inside => ?_⟩
  obtain ⟨others, rfl⟩ := List.head?_eq_some_iff.mp meets
  exact mem_branch inside

theorem primaryItems_of_closed {kind : Kind} (closed : ¬Grammar.opensTerm kind = true) :
    Tree.primaryItems expression kind = unexpected .expression := by
  cases kind with
  | int | float | string | ident | leftParen | leftBracket | leftBrace => exact absurd rfl closed
  | _ => rfl

theorem follows_primaryItems (expressing : Expressing expression) (viable : Viable after)
    (others : Starts (· ≠ .leftParen) after) :
    Follows (primary anyExpr * after) (fun _ => after) stop tokens
      (Tree.primaryItems expression (ahead stop tokens).kind stop tokens) := by
  by_cases opens : Grammar.opensTerm (ahead stop tokens).kind = true
  · cases tokens with
    | nil => cases opens
    | cons token rest =>
        apply Follows.narrow (leads_branch after token rest)
        rw [ahead_cons] at opens ⊢
        cases is : token.kind with
        | int value => exact follows_alone (.took (.terminal ⟨value, is⟩))
        | float value => exact follows_alone (.took (.terminal ⟨value, is⟩))
        | string contents => exact follows_alone (.took (.terminal ⟨contents, is⟩))
        | ident name =>
            rw [branch_ident]
            exact follows_named expressing viable others
        | leftParen => exact follows_grouped expressing viable is
        | leftBracket => exact follows_alone (follows_tuple expressing viable)
        | leftBrace => exact follows_alone (follows_object expressing viable)
        | _ =>
            rw [is] at opens
            cases opens
  · rw [primaryItems_of_closed opens]
    exact .failWith (viable_primary.mul viable) ((begins_primary anyExpr).mul.unmet stop opens)

theorem follows_primary (expressing : Expressing expression) (viable : Viable after)
    (others : Starts (· ≠ .leftParen) after) :
    Follows (primary anyExpr * after) (fun _ => after) stop tokens
      (Tree.primary expression stop tokens) := by
  rw [Tree.primary, peek_bind]
  exact .bind (follows_primaryItems expressing viable others) fun _ _ _ => .pure

/-! ### Projections -/

/-- What may stand behind a dot. -/
def IsMember (kind : Kind) : Prop :=
  (∃ name, kind = .ident name) ∨ (∃ value, kind = .int value) ∨ kind = .star

/-- What may stand between the brackets of a step. -/
def IsSubscript (kind : Kind) : Prop :=
  (∃ value, kind = .int value) ∨ (∃ contents, kind = .string contents) ∨ kind = .star

theorem proj_eq :
    proj = mark .dot * terminal IsMember +
      mark .leftBracket * (terminal IsSubscript * mark .rightBracket) := by
  have members : ident + (int + mark .star) = terminal IsMember := by
    rw [int, mark, terminal_add, ident, terminal_add]
    rfl
  have subscripts : int + (string + mark .star) = terminal IsSubscript := by
    rw [string, mark, terminal_add, int, terminal_add]
    rfl
  rw [proj, members, subscripts]

theorem follows_member (line : Nat) (viable : Viable after) :
    Follows (terminal IsMember * after) (fun _ => after) stop tokens
      (Tree.member line (ahead stop tokens).kind stop tokens) := by
  cases tokens with
  | nil => exact .misses (.inr (.inr rfl)) viable (by simp [IsMember])
  | cons token rest =>
      rw [ahead_cons]
      cases is : token.kind with
      | star => exact .took (.terminal (.inr (.inr is)))
      | int value => exact .took (.terminal (.inr (.inl ⟨value, is⟩)))
      | ident name =>
          rw [Tree.member, bind_of_done (identifier_of_kind is)]
          · exact .took (.terminal (.inl ⟨name, is⟩))
          all_goals simp
      | _ =>
          have unnamed : ∀ name, (ahead stop (token :: rest)).kind ≠ .ident name := by simp [is]
          rw [Tree.member, bind_of_failed (identifier_of_ne unnamed)]
          · exact .misses (.inr (.inr rfl)) viable (by simp [IsMember, is])
          all_goals simp

theorem follows_dotProjection {token : Token} {rest : List Token} (viable : Viable after)
    (dot : token.kind = .dot) :
    Follows (mark .dot * (terminal IsMember * after)) (fun _ => after) stop (token :: rest)
      (Tree.dotProjection stop (token :: rest)) := by
  rw [Tree.dotProjection, advance_bind_cons, peek_bind]
  exact .next (.terminal dot) (follows_member _ viable)

theorem follows_subscript (line : Nat) (viable : Viable after) :
    Follows (terminal IsSubscript * after) (fun _ => after) stop tokens
      (Tree.subscript line (ahead stop tokens).kind stop tokens) := by
  cases tokens with
  | nil => exact .misses (.inr (.inr rfl)) viable (by simp [IsSubscript])
  | cons token rest =>
      rw [ahead_cons]
      cases is : token.kind with
      | star => exact .took (.terminal (.inr (.inr is)))
      | int value => exact .took (.terminal (.inl ⟨value, is⟩))
      | string contents => exact .took (.terminal (.inr (.inl ⟨contents, is⟩)))
      | _ => exact .misses (.inr (.inr rfl)) viable (by simp [IsSubscript, is])

theorem follows_bracketProjection {token : Token} {rest : List Token} (viable : Viable after)
    (opens : token.kind = .leftBracket) :
    Follows (mark .leftBracket * (terminal IsSubscript * (mark .rightBracket * after)))
      (fun _ => after) stop (token :: rest) (Tree.bracketProjection stop (token :: rest)) := by
  rw [Tree.bracketProjection, advance_bind_cons, peek_bind]
  refine .next (.terminal opens) ?_
  refine .bind (follows_subscript _ ((viable_mark _).mul viable)) fun _ _ _ => ?_
  exact .bind (follows_expect (by decide) viable) fun _ _ _ => .pure

theorem follows_projection (viable : Viable after)
    (steps : (ahead stop tokens).kind = .dot ∨ (ahead stop tokens).kind = .leftBracket) :
    Follows (proj * after) (fun _ => after) stop tokens
      (Tree.projection (ahead stop tokens).kind stop tokens) := by
  rw [proj_eq, add_mul]
  simp only [mul_assoc]
  rcases steps with dot | opens
  · obtain ⟨token, rest, rfl, is⟩ := eq_cons_of_kind dot (by decide)
    rw [Tree.projection, if_pos dot]
    refine .narrow (.left (begins_mark_self.mul.unmet stop ?_)) (follows_dotProjection viable is)
    rw [dot]
    decide
  · obtain ⟨token, rest, rfl, is⟩ := eq_cons_of_kind opens (by decide)
    rw [Tree.projection, opens, if_neg (by decide)]
    refine .narrow (.right (begins_mark_self.mul.unmet stop ?_)) ?_
    · rw [opens]
      decide
    · exact follows_bracketProjection viable is

/-- No step begins otherwise than with a dot or a bracket. -/
theorem begins_proj : Begins (fun kind => kind = .dot ∨ kind = .leftBracket) proj :=
  .add (begins_mark (.inl rfl)).mul (begins_mark (.inr rfl)).mul

theorem follows_projections (line : Nat) (viable : Viable after)
    (others : Starts (fun kind => Tree.extendsTerm kind = false) after) (bound : List Token)
    (height : Nat) (term : Tree) (enough : tokens.length < bound.length) :
    Follows (proj∗ * after) (fun _ => after) stop tokens
      (Tree.projections line bound height term stop tokens) := by
  induction bound generalizing tokens height term with
  | nil => exact absurd enough (Nat.not_lt_zero _)
  | cons _ bound ih =>
      rw [List.length_cons] at enough
      rw [Tree.projections, peek_bind, star_mul]
      by_cases steps : (ahead stop tokens).kind = .dot ∨ (ahead stop tokens).kind = .leftBracket
      · rw [if_pos steps]
        split
        · exact .tooDeep
        have viableSteps : Viable (proj∗ * after) := (viable_star _).mul viable
        have goes : ¬Tree.extendsTerm (ahead stop tokens).kind = false := by
          rcases steps with dot | opens
          · simp [dot, Tree.extendsTerm]
          · simp [opens, Tree.extendsTerm]
        obtain ⟨token, rest, rfl⟩ : ∃ token rest, tokens = token :: rest := by
          cases tokens with
          | nil => exact absurd rfl goes
          | cons token rest => exact ⟨token, rest, rfl⟩
        refine .narrow (.right (others.unmet goes)) ?_
        refine .bind (follows_projection viableSteps steps) fun step left taken => ?_
        have shorter := Tree.projection_length steps taken
        exact ih _ _ (by omega)
      · rw [if_neg steps]
        exact .narrow (.left (begins_proj.mul.unmet stop steps)) .pure

theorem starts_projections {test : Kind → Prop} (dot : test .dot) (opens : test .leftBracket)
    (others : Starts test after) : Starts test (proj∗ * after) := by
  have steps : Starts test proj := begins_proj.starts.imp fun kind is => by
    rcases is with rfl | rfl
    · exact dot
    · exact opens
  exact steps.star.mul others

theorem follows_term (expressing : Expressing expression) (viable : Viable after)
    (others : Starts (fun kind => Tree.extendsTerm kind = false) after) :
    Follows (primary anyExpr * (proj∗ * after)) (fun _ => after) stop tokens
      (Tree.term expression stop tokens) := by
  have bare : Starts (· ≠ .leftParen) after := others.imp fun kind outside => by
    rintro rfl
    cases outside
  rw [Tree.term, peek_bind]
  refine .bind (follows_primary expressing ((viable_star _).mul viable) ?_) fun start rest _ => ?_
  · exact starts_projections (by decide) (by decide) bare
  · exact follows_projections _ viable others _ _ _ (Nat.lt_succ_self _)

/-- A term with perhaps a sign before it. -/
theorem operand_mul (after : Language Kind) :
    operand anyExpr * after = primary anyExpr * (proj∗ * after) +
      terminal (fun sign => sign = .minus ∨ sign = .bang) *
        (primary anyExpr * (proj∗ * after)) := by
  rw [operand, mul_assoc, mul_assoc, optional_mul, marks_eq]

theorem follows_operand (expressing : Expressing expression) (viable : Viable after)
    (others : Starts (fun kind => Tree.extendsTerm kind = false) after) :
    Follows (operand anyExpr * after) (fun _ => after) stop tokens
      (Tree.operand expression stop tokens) := by
  rw [Tree.operand, peek_bind, operand_mul]
  by_cases signs : (ahead stop tokens).kind = .minus ∨ (ahead stop tokens).kind = .bang
  · rw [if_pos signs]
    cases tokens with
    | nil => exact absurd signs (by simp)
    | cons token rest =>
        have unsigned : Starts (fun kind => ¬(kind = .minus ∨ kind = .bang))
            (primary anyExpr * (proj∗ * after)) := by
          refine (begins_primary anyExpr).mul.starts.imp ?_
          rintro kind opens (rfl | rfl)
          · cases opens
          · cases opens
        rw [advance_bind_cons]
        refine .next (.take unsigned signs) ?_
        exact .bind (follows_term expressing viable others) fun _ _ _ => .pure
  · rw [if_neg signs]
    refine .narrow (.left ((begins_terminal fun _ is => is).mul.unmet stop signs)) ?_
    exact follows_term expressing viable others

/-- An operand, and perhaps an operator with an expression behind it. -/
theorem anyExpr_mul (after : Language Kind) :
    anyExpr * after = operand anyExpr * (after + binop * (lines * (anyExpr * after))) := by
  nth_rewrite 1 [anyExpr_eq]
  rw [operation, mul_assoc, optional_mul, mul_assoc, mul_assoc]

theorem extendsTerm_of_isBinaryOperator {kind : Kind} (joins : kind.isBinaryOperator = true) :
    Tree.extendsTerm kind = false := by
  cases kind with
  | dot | leftBracket | leftParen => cases joins
  | _ => rfl

theorem follows_operation (expressing : Expressing expression) (viable : Viable after)
    (others : Starts Outside after) :
    Follows (anyExpr * after) (fun _ => after) stop tokens
      (Tree.operation expression stop tokens) := by
  have joined : Begins (fun kind => kind.isBinaryOperator = true) binop :=
    begins_terminal fun _ is => is
  have unjoined : Starts (fun kind => ¬kind.isBinaryOperator = true) after :=
    others.imp fun kind outside => by
      rw [(Bool.or_eq_false_iff.mp outside).2]
      exact Bool.false_ne_true
  rw [Tree.operation, peek_bind, anyExpr_mul]
  refine .bind (follows_operand expressing viable.left ?_) fun left rest _ => ?_
  · refine .add (others.imp fun kind outside => (Bool.or_eq_false_iff.mp outside).1) ?_
    exact joined.mul.starts.imp fun kind => extendsTerm_of_isBinaryOperator
  rw [peek_bind]
  by_cases joins : (ahead stop rest).kind.isBinaryOperator = true
  · rw [if_pos joins]
    cases rest with
    | nil => cases joins
    | cons sign rest =>
        rw [advance_bind_cons]
        refine .next (.take unjoined joins) ?_
        refine .bind (follows_lines (starts_anyExpr rfl _)) fun lines left _ => ?_
        exact .bind (expressing.follows viable others) fun _ _ _ => .pure
  · rw [if_neg joins]
    exact .narrow (.left (joined.mul.unmet stop joins)) .pure

end Expressions

theorem expression_length (depth : Nat) {stop : Position} {tokens rest : List Token} {tree : Tree}
    (read : Tree.expression depth stop tokens = .done tree rest) : rest.length < tokens.length :=
  Tree.length_lt_of_reads (Tree.expression_reads depth) (Grammar.Expr.opens depth).ne_nil read

/-- Whatever limit there is on nesting, an expression is read as one without. -/
theorem expressing_expression (depth : Nat) : Expressing (Tree.expression depth) := by
  induction depth with
  | zero => exact ⟨fun _ _ => .tooDeep, expression_length 0⟩
  | succ depth ih => exact ⟨follows_operation ih, expression_length (depth + 1)⟩

end ConfigLang.Ebnf
