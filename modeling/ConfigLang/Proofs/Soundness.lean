import ConfigLang.Proofs.Reading
/-!
What the readers of expressions, statements and documents read is a phrase of the grammar.
-/

set_option autoImplicit false

namespace ConfigLang.Tree

open Reader

variable {Value Nested : Grammar.Phrase} {expression block : Reader Tree}

/-- What a reader takes when it is done is a phrase. -/
def Reads {α : Type} (reader : Reader α) (Spells : List Token → α → Prop) : Prop :=
  ∀ ⦃stop tokens value rest⦄, reader stop tokens = .done value rest →
    ∃ used, tokens = used ++ rest ∧ Spells used value

/-! ### Collections -/

theorem tupleItems_reads (sound : Reads expression Value) (bound : List Token) :
    Reads (tupleItems expression bound) fun used trees =>
      ∃ lead items inner, used = lead ++ items ∧ trees = Grammar.newLines lead ++ inner ∧
        Grammar.Newlines lead ∧ Grammar.Optional (Grammar.Items Value) items inner := by
  induction bound with
  | nil =>
      intro stop tokens trees rest read
      simp only [tupleItems, pure_done_iff] at read
      obtain ⟨rfl, rfl⟩ := read
      exact ⟨[], rfl, [], [], [], rfl, rfl, nofun, .none⟩
  | cons _ bound ih =>
      intro stop tokens trees rest read
      simp only [tupleItems, bind_eq_done_iff, sees_done_iff] at read
      obtain ⟨_, _, before, _, _, ⟨rfl, rfl⟩, read⟩ := read
      obtain ⟨lead, rfl, leading, rfl, _⟩ := newLines_done before
      split at read
      · simp only [pure_done_iff] at read
        obtain ⟨rfl, rfl⟩ := read
        exact ⟨lead, rfl, lead, [], [], by simp, by simp, leading, .none⟩
      · simp only [bind_eq_done_iff] at read
        obtain ⟨tree, _, first, _, tokens, after, taken, _, accepted, read⟩ := read
        obtain ⟨value, rfl, item⟩ := sound first
        obtain ⟨trail, rfl, trailing, rfl, _⟩ := newLines_done after
        rcases accept_done (by decide) accepted with ⟨rfl, comma, rfl, separates⟩ | ⟨rfl, rfl, _⟩
        · simp only [↓reduceIte, bind_eq_done_iff, pure_done_iff] at read
          obtain ⟨_, _, more, rfl, rfl⟩ := read
          obtain ⟨_, rfl, next, items, inner, rfl, rfl, newlines, follow⟩ := ih more
          exact ⟨lead ++ (value ++ (trail ++ comma :: (next ++ items))), by simp, lead, _, _, rfl,
            by simp, leading, .some (.separated item trailing separates newlines follow)⟩
        · simp only [Bool.false_eq_true, ↓reduceIte, pure_done_iff] at read
          obtain ⟨rfl, rfl⟩ := read
          exact ⟨lead ++ (value ++ trail), by simp, lead, _, _, rfl, by simp, leading,
            .some (.last item trailing)⟩

theorem tuple_reads (sound : Reads expression Value) :
    Reads (tuple expression) fun used tree => Grammar.Primary Value used [tree] := by
  intro stop tokens tree rest read
  simp (disch := decide) only [tuple, bind_eq_done_iff, expect_done_iff, pure_done_iff] at read
  obtain ⟨opening, _, ⟨rfl, opens⟩, _, _, loop, closing, _, ⟨rfl, closes⟩, rfl, rfl⟩ := read
  obtain ⟨_, rfl, lead, items, inner, rfl, rfl, leading, follow⟩ := tupleItems_reads sound _ loop
  exact ⟨opening :: (lead ++ (items ++ [closing])), by simp, .tuple opens leading follow closes⟩

/-- The first argument is always read, and so are those after it if there is a list left. -/
theorem callItems_reads_of_rest (sound : Reads expression Value) {bound : List Token}
    {token : Token}
    (others : Reads (callItems expression bound) (Grammar.Optional (Grammar.Items Value))) :
    Reads (callItems expression (token :: bound)) (Grammar.Items Value) := by
  intro stop tokens trees rest read
  simp only [callItems, bind_eq_done_iff] at read
  obtain ⟨tree, _, first, _, _, after, taken, _, accepted, read⟩ := read
  obtain ⟨value, rfl, item⟩ := sound first
  obtain ⟨trail, rfl, trailing, rfl, _⟩ := newLines_done after
  rcases accept_done (by decide) accepted with ⟨rfl, comma, rfl, separates⟩ | ⟨rfl, rfl, _⟩
  · simp only [↓reduceIte, bind_eq_done_iff, sees_done_iff] at read
    obtain ⟨_, _, before, _, _, ⟨rfl, rfl⟩, read⟩ := read
    obtain ⟨lead, rfl, leading, rfl, _⟩ := newLines_done before
    split at read
    · simp only [pure_done_iff] at read
      obtain ⟨rfl, rfl⟩ := read
      exact ⟨value ++ (trail ++ comma :: lead), by simp, .comma item trailing separates leading⟩
    · simp only [bind_eq_done_iff, pure_done_iff] at read
      obtain ⟨_, _, more, rfl, rfl⟩ := read
      obtain ⟨items, rfl, follow⟩ := others more
      exact ⟨value ++ (trail ++ comma :: (lead ++ items)), by simp,
        by simpa using Grammar.Items.separated item trailing separates leading follow⟩
  · simp only [Bool.false_eq_true, ↓reduceIte, pure_done_iff] at read
    obtain ⟨rfl, rfl⟩ := read
    exact ⟨value ++ trail, by simp, .last item trailing⟩

theorem callItems_reads (sound : Reads expression Value) (bound : List Token) :
    Reads (callItems expression bound) (Grammar.Optional (Grammar.Items Value)) := by
  induction bound with
  | nil =>
      intro stop tokens trees rest read
      simp only [callItems, pure_done_iff] at read
      obtain ⟨rfl, rfl⟩ := read
      exact ⟨[], rfl, .none⟩
  | cons _ bound ih =>
      intro stop tokens trees rest read
      obtain ⟨used, rfl, items⟩ := callItems_reads_of_rest sound ih read
      exact ⟨used, rfl, .some items⟩

/-- The token ahead is on the line of the phrase that begins there. -/
theorem line_ahead (stop : Position) {used : List Token} (rest : List Token)
    (nonempty : used ≠ []) : (ahead stop (used ++ rest)).place.line = Grammar.line used := by
  cases used with
  | nil => exact absurd rfl nonempty
  | cons first others => rfl

theorem callArguments_reads (sound : Reads expression Value) (opens : Grammar.Opens Value) :
    Reads (callArguments expression) (Grammar.Arguments Value) := by
  intro stop tokens trees rest read
  simp only [callArguments, bind_eq_done_iff, peek_done_iff] at read
  obtain ⟨_, _, ⟨rfl, rfl⟩, read⟩ := read
  split at read
  · simp only [pure_done_iff] at read
    obtain ⟨rfl, rfl⟩ := read
    exact ⟨[], rfl, .none⟩
  · simp only [bind_eq_done_iff, pure_done_iff] at read
    obtain ⟨_, _, loop, rfl, rfl⟩ := read
    obtain ⟨used, rfl, items⟩ := callItems_reads_of_rest sound (callItems_reads sound _) loop
    refine ⟨used, rfl, ?_⟩
    rw [line_ahead _ _ (items.ne_nil opens)]
    exact .some items

theorem call_reads (sound : Reads expression Value) (opens : Grammar.Opens Value) :
    Reads (call expression) fun used tree => Grammar.Primary Value used [tree] := by
  intro stop tokens tree rest read
  simp (disch := decide) only [call, bind_eq_done_iff, peek_done_iff, expect_done_iff,
    pure_done_iff] at read
  obtain ⟨_, _, ⟨rfl, rfl⟩, _, _, title, opening, _, ⟨rfl, opened⟩, _, _, before, _, _, inner,
    closing, _, ⟨rfl, closes⟩, rfl, rfl⟩ := read
  obtain ⟨function, name, rfl, named, rfl⟩ := identifier_done title
  obtain ⟨lead, rfl, leading, rfl, _⟩ := newLines_done before
  obtain ⟨items, rfl, arguments⟩ := callArguments_reads sound opens inner
  exact ⟨function :: opening :: (lead ++ (items ++ [closing])), by simp,
    .call named opened leading arguments closes⟩

theorem objectKey_done {stop : Position} {tokens rest : List Token} {tree : Tree}
    (read : objectKey (ahead stop tokens).kind stop tokens = .done tree rest) :
    ∃ token, tokens = token :: rest ∧ Grammar.Key token tree := by
  cases tokens with
  | nil => cases read
  | cons token others =>
      rw [ahead_cons] at read
      cases matching : token.kind with
      | ident name =>
          rw [matching, objectKey, identifier_of_kind matching] at read
          cases read
          exact ⟨token, rfl, .name matching⟩
      | string contents =>
          rw [matching, objectKey, single_cons] at read
          cases read
          exact ⟨token, rfl, .string matching⟩
      | _ =>
          rw [matching] at read
          cases read

theorem objectAssignment_done {stop : Position} {tokens rest : List Token}
    (read : objectAssignment stop tokens = .done () rest) :
    ∃ sign, tokens = sign :: rest ∧ (sign.kind = .assign ∨ sign.kind = .colon) := by
  simp only [objectAssignment, bind_eq_done_iff, peek_done_iff] at read
  obtain ⟨_, _, ⟨rfl, rfl⟩, read⟩ := read
  cases tokens with
  | nil => cases read
  | cons sign others =>
      split at read
      next assigns =>
        cases read
        exact ⟨sign, rfl, assigns⟩
      next => cases read

theorem objectElement_reads (sound : Reads expression Value) :
    Reads (objectElement expression) (Grammar.Element Value) := by
  intro stop tokens tree rest read
  simp only [objectElement, bind_eq_done_iff, peek_done_iff, pure_done_iff] at read
  obtain ⟨_, _, ⟨rfl, rfl⟩, keyTree, _, keyed, _, _, assigned, tree, _, valued, rfl, rfl⟩ := read
  obtain ⟨key, rfl, named⟩ := objectKey_done keyed
  obtain ⟨sign, rfl, assigns⟩ := objectAssignment_done assigned
  obtain ⟨value, rfl, item⟩ := sound valued
  exact ⟨key :: sign :: value, rfl, .mk named assigns item⟩

theorem objectItems_reads (sound : Reads expression Value) (bound : List Token) :
    Reads (objectItems expression bound) (Grammar.Elements Value) := by
  induction bound with
  | nil =>
      intro stop tokens trees rest read
      simp only [objectItems, pure_done_iff] at read
      obtain ⟨rfl, rfl⟩ := read
      exact ⟨[], rfl, .none⟩
  | cons _ bound ih =>
      intro stop tokens trees rest read
      simp only [objectItems, bind_eq_done_iff, peek_done_iff] at read
      obtain ⟨_, _, ⟨rfl, rfl⟩, read⟩ := read
      split at read
      · simp only [pure_done_iff] at read
        obtain ⟨rfl, rfl⟩ := read
        exact ⟨[], rfl, .none⟩
      · simp only [bind_eq_done_iff] at read
        obtain ⟨tree, _, first, comma, _, accepted, _, _, between, read⟩ := read
        obtain ⟨element, rfl, item⟩ := objectElement_reads sound first
        obtain ⟨lines, rfl, newlines, rfl, _⟩ := newLines_done between
        rcases accept_done (by decide) accepted with ⟨rfl, comma, rfl, separates⟩ | ⟨rfl, rfl, _⟩
        · simp only [Bool.true_or, ↓reduceIte, bind_eq_done_iff, pure_done_iff] at read
          obtain ⟨_, _, more, rfl, rfl⟩ := read
          obtain ⟨others, rfl, follow⟩ := ih more
          exact ⟨element ++ (comma :: lines ++ others), by simp,
            by simpa using Grammar.Elements.more item (.comma separates newlines) follow⟩
        · cases lines with
          | nil =>
              simp only [Grammar.newLines, List.isEmpty_nil, Bool.not_true, Bool.or_self,
                Bool.false_eq_true, ↓reduceIte, pure_done_iff] at read
              obtain ⟨rfl, rfl⟩ := read
              exact ⟨element, by simp, .last item⟩
          | cons line lines =>
              simp only [Grammar.newLines, List.isEmpty_cons, Bool.not_false, Bool.or_true,
                ↓reduceIte, bind_eq_done_iff, pure_done_iff] at read
              obtain ⟨_, _, more, rfl, rfl⟩ := read
              obtain ⟨others, rfl, follow⟩ := ih more
              exact ⟨element ++ (line :: lines ++ others), by simp,
                by simpa [Grammar.newLines] using
                  Grammar.Elements.more item (.lines (List.cons_ne_nil line lines) newlines) follow⟩

theorem object_reads (sound : Reads expression Value) :
    Reads (object expression) fun used tree => Grammar.Primary Value used [tree] := by
  intro stop tokens tree rest read
  simp (disch := decide) only [object, bind_eq_done_iff, expect_done_iff, pure_done_iff] at read
  obtain ⟨opening, _, ⟨rfl, opens⟩, _, _, before, _, _, loop, closing, _, ⟨rfl, closes⟩, rfl,
    rfl⟩ := read
  obtain ⟨lead, rfl, leading, rfl, _⟩ := newLines_done before
  obtain ⟨items, rfl, elements⟩ := objectItems_reads sound _ loop
  exact ⟨opening :: (lead ++ (items ++ [closing])), by simp, .object opens leading elements closes⟩

/-! ### Terms -/

theorem alone_done_iff {reader : Reader Tree} {stop : Position} {tokens rest : List Token}
    {trees : List Tree} :
    alone reader stop tokens = .done trees rest ↔
      ∃ tree, reader stop tokens = .done tree rest ∧ [tree] = trees := by
  simp only [alone, bind_eq_done_iff, pure_done_iff]
  constructor
  · rintro ⟨tree, _, read, rfl, rfl⟩
    exact ⟨tree, read, rfl⟩
  · rintro ⟨tree, read, rfl⟩
    exact ⟨tree, _, read, rfl, rfl⟩

theorem grouped_reads (sound : Reads expression Value) {stop : Position}
    {tokens rest : List Token} {trees : List Tree}
    (opens : (ahead stop tokens).kind = .leftParen)
    (read : grouped expression stop tokens = .done trees rest) :
    ∃ used, tokens = used ++ rest ∧ Grammar.Primary Value used trees := by
  obtain ⟨opening, tokens, rfl, opens⟩ := eq_cons_of_kind opens (by decide)
  simp (disch := decide) only [grouped, bind_eq_done_iff, advance_done_iff, expect_done_iff,
    pure_done_iff] at read
  obtain ⟨_, _, ⟨rfl, rfl⟩, _, _, before, tree, _, first, _, _, after, closing, _, ⟨rfl, closes⟩,
    rfl, rfl⟩ := read
  rw [List.tail_cons] at before
  obtain ⟨lead, rfl, leading, rfl, _⟩ := newLines_done before
  obtain ⟨value, rfl, item⟩ := sound first
  obtain ⟨trail, rfl, trailing, rfl, _⟩ := newLines_done after
  exact ⟨opening :: (lead ++ (value ++ (trail ++ [closing]))), by simp,
    .group opens leading item trailing closes⟩

theorem named_reads (sound : Reads expression Value) (opens : Grammar.Opens Value) :
    Reads (named expression) (Grammar.Primary Value) := by
  intro stop tokens trees rest read
  simp only [named, bind_eq_done_iff, peekSecond_done_iff] at read
  obtain ⟨_, _, ⟨rfl, rfl⟩, read⟩ := read
  split at read
  · obtain ⟨tree, called, rfl⟩ := alone_done_iff.mp read
    exact call_reads sound opens called
  · obtain ⟨tree, single, rfl⟩ := alone_done_iff.mp read
    obtain ⟨token, name, rfl, named, rfl⟩ := identifier_done single
    exact ⟨[token], rfl, .name named⟩

/-- The kind of the token ahead decides which primary is read. -/
theorem primaryItems_reads (sound : Reads expression Value) (opens : Grammar.Opens Value)
    {stop : Position} {tokens rest : List Token} {children : List Tree}
    (read : primaryItems expression (ahead stop tokens).kind stop tokens = .done children rest) :
    ∃ used, tokens = used ++ rest ∧ Grammar.Primary Value used children := by
  cases tokens with
  | nil => cases read
  | cons token others =>
      rw [ahead_cons] at read
      cases matching : token.kind with
      | int value =>
          rw [matching] at read
          cases read
          exact ⟨[token], rfl, .int matching⟩
      | float value =>
          rw [matching] at read
          cases read
          exact ⟨[token], rfl, .float matching⟩
      | string contents =>
          rw [matching] at read
          cases read
          exact ⟨[token], rfl, .string matching⟩
      | ident name =>
          rw [matching] at read
          exact named_reads sound opens read
      | leftParen =>
          rw [matching] at read
          exact grouped_reads sound matching read
      | leftBracket =>
          rw [matching] at read
          obtain ⟨tree, inner, rfl⟩ := alone_done_iff.mp read
          exact tuple_reads sound inner
      | leftBrace =>
          rw [matching] at read
          obtain ⟨tree, inner, rfl⟩ := alone_done_iff.mp read
          exact object_reads sound inner
      | _ =>
          rw [matching] at read
          cases read

theorem primary_reads (sound : Reads expression Value) (opens : Grammar.Opens Value) :
    Reads (primary expression) fun used tree => ∃ children,
      tree = .node .term (Grammar.line used) children ∧ Grammar.Primary Value used children := by
  intro stop tokens tree rest read
  simp only [primary, bind_eq_done_iff, peek_done_iff, pure_done_iff] at read
  obtain ⟨_, _, ⟨rfl, rfl⟩, children, _, inner, rfl, rfl⟩ := read
  obtain ⟨used, rfl, primary⟩ := primaryItems_reads sound opens inner
  obtain ⟨first, others, rfl, _⟩ := primary.opens
  exact ⟨first :: others, rfl, children, rfl, primary⟩

/-! ### Projections -/

theorem dotProjection_reads {stop : Position} {tokens rest : List Token} {step : Projection}
    (steps : (ahead stop tokens).kind = .dot)
    (read : dotProjection stop tokens = .done step rest) :
    ∃ used, tokens = used ++ rest ∧ Grammar.Step used step := by
  obtain ⟨dot, tokens, rfl, steps⟩ := eq_cons_of_kind steps (by decide)
  simp only [dotProjection, bind_eq_done_iff, advance_done_iff, peek_done_iff] at read
  obtain ⟨_, _, ⟨rfl, rfl⟩, _, _, ⟨rfl, rfl⟩, read⟩ := read
  rw [List.tail_cons, ahead_cons] at read
  cases tokens with
  | nil => cases read
  | cons token others =>
      rw [ahead_cons] at read
      cases matching : token.kind with
      | star =>
          rw [matching] at read
          cases read
          exact ⟨[dot, token], rfl, .attrSplat steps matching⟩
      | int value =>
          rw [matching] at read
          cases read
          exact ⟨[dot, token], rfl, .number steps matching⟩
      | ident name =>
          rw [matching, member, bind_of_done (identifier_of_kind matching)] at read
          · cases read
            exact ⟨[dot, token], rfl, .attr steps matching⟩
          · intro same
            cases same
          · intro value same
            cases same
      | _ =>
          rw [matching, member, bind_eq_done_iff] at read
          · obtain ⟨_, _, named, _⟩ := read
            obtain ⟨_, _, same, other, _⟩ := identifier_done named
            cases same
            rw [matching] at other
            cases other
          · intro same
            cases same
          · intro value same
            cases same

theorem bracketProjection_reads {stop : Position} {tokens rest : List Token} {step : Projection}
    (opens : (ahead stop tokens).kind = .leftBracket)
    (read : bracketProjection stop tokens = .done step rest) :
    ∃ used, tokens = used ++ rest ∧ Grammar.Step used step := by
  obtain ⟨opening, tokens, rfl, opens⟩ := eq_cons_of_kind opens (by decide)
  simp (disch := decide) only [bracketProjection, bind_eq_done_iff, advance_done_iff,
    peek_done_iff, expect_done_iff, pure_done_iff] at read
  obtain ⟨_, _, ⟨rfl, rfl⟩, _, _, ⟨rfl, rfl⟩, _, _, inner, closing, _, ⟨rfl, closes⟩, rfl,
    rfl⟩ := read
  rw [List.tail_cons, ahead_cons] at inner
  cases tokens with
  | nil => cases inner
  | cons token others =>
      rw [ahead_cons] at inner
      cases matching : token.kind with
      | star =>
          rw [matching] at inner
          cases inner
          exact ⟨[opening, token, closing], rfl, .fullSplat opens matching closes⟩
      | int value =>
          rw [matching] at inner
          cases inner
          exact ⟨[opening, token, closing], rfl, .int opens matching closes⟩
      | string contents =>
          rw [matching] at inner
          cases inner
          exact ⟨[opening, token, closing], rfl, .string opens matching closes⟩
      | _ =>
          rw [matching] at inner
          cases inner

theorem projection_reads {stop : Position} {tokens rest : List Token} {step : Projection}
    (steps : (ahead stop tokens).kind = .dot ∨ (ahead stop tokens).kind = .leftBracket)
    (read : projection (ahead stop tokens).kind stop tokens = .done step rest) :
    ∃ used, tokens = used ++ rest ∧ Grammar.Step used step := by
  unfold projection at read
  split at read
  next dot => exact dotProjection_reads dot read
  next other => exact bracketProjection_reads (steps.resolve_left other) read

theorem projections_reads (line : Nat) (bound : List Token) (height : Nat) (term : Tree) :
    Reads (projections line bound height term) fun used => Grammar.Steps line used term := by
  induction bound generalizing height term with
  | nil =>
      intro stop tokens tree rest read
      simp only [projections, pure_done_iff] at read
      obtain ⟨rfl, rfl⟩ := read
      exact ⟨[], rfl, .none⟩
  | cons _ bound ih =>
      intro stop tokens tree rest read
      simp only [projections, bind_eq_done_iff, peek_done_iff] at read
      obtain ⟨_, _, ⟨rfl, rfl⟩, read⟩ := read
      split at read
      next steps =>
        split at read
        · cases read
        · simp only [bind_eq_done_iff] at read
          obtain ⟨step, _, first, more⟩ := read
          obtain ⟨used, rfl, taken⟩ := projection_reads steps first
          obtain ⟨others, rfl, follow⟩ := ih _ _ more
          exact ⟨used ++ others, by simp, .more taken follow⟩
      next =>
        simp only [pure_done_iff] at read
        obtain ⟨rfl, rfl⟩ := read
        exact ⟨[], rfl, .none⟩

theorem term_reads (sound : Reads expression Value) (opens : Grammar.Opens Value) :
    Reads (term expression) (Grammar.Term Value) := by
  intro stop tokens tree rest read
  simp only [term, bind_eq_done_iff, peek_done_iff] at read
  obtain ⟨_, _, ⟨rfl, rfl⟩, _, _, first, more⟩ := read
  obtain ⟨start, rfl, children, rfl, primary⟩ := primary_reads sound opens first
  obtain ⟨steps, rfl, follow⟩ := projections_reads _ _ _ _ more
  have nonempty : start ≠ [] := by
    obtain ⟨_, _, rfl, _⟩ := primary.opens
    exact nofun
  rw [line_ahead _ _ nonempty] at follow
  exact ⟨start ++ steps, by simp, .mk primary follow⟩

/-! ### Expressions -/

theorem operand_reads (sound : Reads expression Value) (opens : Grammar.Opens Value) :
    Reads (operand expression) (Grammar.Operand Value) := by
  intro stop tokens tree rest read
  simp only [operand, bind_eq_done_iff, peek_done_iff] at read
  obtain ⟨_, _, ⟨rfl, rfl⟩, read⟩ := read
  split at read
  next signs =>
    simp only [bind_eq_done_iff, advance_done_iff, pure_done_iff] at read
    obtain ⟨_, _, ⟨rfl, rfl⟩, tree, _, inner, rfl, rfl⟩ := read
    obtain ⟨used, same, term⟩ := term_reads sound opens inner
    cases tokens with
    | nil => rcases signs with minus | bang <;> contradiction
    | cons sign others =>
        rw [List.tail_cons] at same
        exact ⟨sign :: used, by rw [same, List.cons_append], .signed signs term⟩
  next =>
    obtain ⟨used, rfl, term⟩ := term_reads sound opens read
    exact ⟨used, rfl, .plain term⟩

theorem operation_reads (sound : Reads expression Value) (opens : Grammar.Opens Value) :
    Reads (operation expression) (Grammar.Operation Value) := by
  intro stop tokens tree rest read
  simp only [operation, bind_eq_done_iff, peek_done_iff] at read
  obtain ⟨_, _, ⟨rfl, rfl⟩, leftTree, tokens, first, _, _, ⟨rfl, rfl⟩, read⟩ := read
  obtain ⟨left, rfl, operand⟩ := operand_reads sound opens first
  split at read
  next joins =>
    simp only [bind_eq_done_iff, advance_done_iff, pure_done_iff] at read
    obtain ⟨_, _, ⟨rfl, rfl⟩, _, _, between, rightTree, _, second, rfl, rfl⟩ := read
    obtain ⟨lines, same, newlines, rfl, _⟩ := newLines_done between
    obtain ⟨right, rfl, rest⟩ := sound second
    have nonempty : left ≠ [] := by
      obtain ⟨_, _, rfl, _⟩ := Grammar.Operand.opens Value operand
      exact nofun
    cases tokens with
    | nil => cases joins
    | cons sign others =>
        rw [List.tail_cons] at same
        subst same
        refine ⟨left ++ sign :: (lines ++ right), by simp, ?_⟩
        rw [line_ahead _ _ nonempty]
        exact .binary operand joins newlines rest
  next =>
    simp only [pure_done_iff] at read
    obtain ⟨rfl, rfl⟩ := read
    exact ⟨left, rfl, .single operand⟩

theorem expression_reads (depth : Nat) : Reads (Tree.expression depth) (Grammar.Expr depth) := by
  induction depth with
  | zero =>
      intro stop tokens tree rest read
      cases read
  | succ depth ih => exact operation_reads ih (Grammar.Expr.opens depth)

/-! ### Statements -/

theorem attr_reads (sound : Reads expression Value) :
    Reads (attr expression) (Grammar.Stmt Value Nested) := by
  intro stop tokens tree rest read
  simp (disch := decide) only [attr, bind_eq_done_iff, peek_done_iff, expect_done_iff,
    pure_done_iff] at read
  obtain ⟨_, _, ⟨rfl, rfl⟩, _, _, title, sign, _, ⟨rfl, assigns⟩, tree, _, inner, rfl, rfl⟩ := read
  obtain ⟨key, name, rfl, named, rfl⟩ := identifier_done title
  obtain ⟨value, rfl, item⟩ := sound inner
  exact ⟨key :: sign :: value, rfl, .attr named assigns item⟩

theorem clause_reads (sound : Reads expression Value) (nested : Reads block Nested) :
    Reads (clause expression block) (Grammar.Stmt Value Nested) := by
  intro stop tokens tree rest read
  simp only [clause, bind_eq_done_iff, peekSecond_done_iff] at read
  obtain ⟨_, _, ⟨rfl, rfl⟩, read⟩ := read
  split at read
  · exact attr_reads sound read
  · obtain ⟨used, rfl, inner⟩ := nested read
    exact ⟨used, rfl, .block inner⟩

/-- The kinds before which a statement may end. -/
def EndsStatement (closing : Option Kind) (kind : Kind) : Prop :=
  kind = .newline ∨ kind = .eof ∨ some kind = closing

/-- A statement has been read only if its line ends there. -/
theorem statement_done {closing : Option Kind} {stop : Position} {tokens rest : List Token}
    {tree : Tree} (sound : Reads expression Value) (nested : Reads block Nested)
    (read : statement expression block closing stop tokens = .done tree rest) :
    ∃ used, tokens = used ++ rest ∧ Grammar.Stmt Value Nested used tree ∧
      EndsStatement closing (ahead stop rest).kind := by
  simp only [statement, bind_eq_done_iff, peek_done_iff] at read
  obtain ⟨_, _, inner, _, _, ⟨rfl, rfl⟩, read⟩ := read
  split at read
  next ends =>
    simp only [pure_done_iff] at read
    obtain ⟨rfl, rfl⟩ := read
    obtain ⟨used, rfl, stmt⟩ := clause_reads sound nested inner
    exact ⟨used, rfl, stmt, ends⟩
  next => cases read

theorem label?_eq_some_iff {token : Token} {tree : Tree} :
    label? token = some tree ↔ Grammar.Key token tree := by
  constructor
  · intro labelled
    unfold label? at labelled
    split at labelled
    next name is =>
      cases labelled
      exact .name is
    next contents is =>
      cases labelled
      exact .string is
    next => cases labelled
  · intro key
    cases key with
    | name is | string is =>
        rw [label?, is]
        rfl

theorem labels_reads : Reads labels Grammar.Labels := by
  intro stop tokens trees rest read
  cases read
  induction tokens with
  | nil => exact ⟨[], rfl, .none⟩
  | cons token tokens ih =>
      cases labelled : label? token with
      | none => exact ⟨[], by simp [labelled], by simpa [labelled] using Grammar.Labels.none⟩
      | some tree =>
          obtain ⟨used, same, follow⟩ := ih
          refine ⟨token :: used, ?_, ?_⟩
          · simpa [labelled] using same
          · simpa [labelled] using Grammar.Labels.more (label?_eq_some_iff.mp labelled) follow

/-! ### Bodies -/

/-- What is left of a body where a token is ahead. Statements need newlines before them, unless the
one before has been left behind. -/
def Continues (Item : Grammar.Phrase) (closing : Option Kind) (ahead : Kind) : Grammar.Phrases :=
  fun used trees => Grammar.Body Item used trees ∧
    (EndsStatement closing ahead → Grammar.Follow Item used trees)

theorem Continues.nil {Item : Grammar.Phrase} {closing : Option Kind} {ahead : Kind} :
    Continues Item closing ahead [] [] :=
  ⟨.blank .nil, fun _ => .none .nil⟩

/-- An item is a run of newlines or one statement, and never nothing. -/
theorem item_done {closing : Option Kind} {stop : Position} {tokens rest : List Token}
    {trees : List Tree} (sound : Reads expression Value) (nested : Reads block Nested)
    (starts : Grammar.Named Nested)
    (read : item expression block closing (ahead stop tokens).kind stop tokens = .done trees rest) :
    ∃ used, tokens = used ++ rest ∧ used ≠ [] ∧
      (Grammar.Newlines used ∧ trees = Grammar.newLines used ∧ PastNewlines rest ∨
        (ahead stop tokens).kind ≠ .newline ∧ ∃ tree, trees = [tree] ∧
          Grammar.Stmt Value Nested used tree ∧ EndsStatement closing (ahead stop rest).kind) := by
  unfold item at read
  split at read
  next newline =>
    obtain ⟨lines, rfl, newlines, rfl, past⟩ := newLines_done read
    refine ⟨lines, rfl, ?_, .inl ⟨newlines, rfl, past⟩⟩
    rintro rfl
    obtain ⟨token, _, same, first⟩ := eq_cons_of_kind newline (by decide)
    rw [List.nil_append] at same
    exact past token (by rw [same]; rfl) first
  next other =>
    obtain ⟨tree, single, rfl⟩ := alone_done_iff.mp read
    obtain ⟨used, rfl, stmt, ends⟩ := statement_done sound nested single
    refine ⟨used, rfl, ?_, .inr ⟨other, tree, rfl, stmt, ends⟩⟩
    obtain ⟨_, _, _, rfl, _⟩ := Grammar.Stmt.named starts stmt
    exact nofun

/-- Newlines or one statement, and then what is left of the body. -/
theorem item_continues {closing : Option Kind} {stop : Position} {tokens left rest : List Token}
    {trees more : List Tree} (sound : Reads expression Value) (nested : Reads block Nested)
    (starts : Grammar.Named Nested)
    (goes : (ahead stop tokens).kind ≠ .eof ∧ some (ahead stop tokens).kind ≠ closing)
    (read : item expression block closing (ahead stop tokens).kind stop tokens = .done trees left)
    (next : ∃ used, left = used ++ rest ∧
      Continues (Grammar.Stmt Value Nested) closing (ahead stop left).kind used more) :
    ∃ used, tokens = used ++ rest ∧
      Continues (Grammar.Stmt Value Nested) closing (ahead stop tokens).kind used
        (trees ++ more) := by
  obtain ⟨others, rfl, body, follow⟩ := next
  obtain ⟨used, rfl, nonempty, lines | statement⟩ := item_done sound nested starts read
  · obtain ⟨newlines, rfl, past⟩ := lines
    have separated := body.after_newlines nonempty newlines (by
      intro token first
      apply past token
      rw [List.head?_append, Option.mem_def.mp first]
      rfl)
    exact ⟨used ++ others, by simp, separated.body, fun _ => separated⟩
  · obtain ⟨other, tree, rfl, stmt, ends⟩ := statement
    refine ⟨used ++ others, by simp, .of_item stmt (follow ends), ?_⟩
    rintro (newline | eof | closes)
    · exact absurd newline other
    · exact absurd eof goes.1
    · exact absurd closes goes.2

theorem blockItems_reads (sound : Reads expression Value) (nested : Reads block Nested)
    (starts : Grammar.Named Nested) (bound : List Token) {stop : Position}
    {tokens rest : List Token} {trees : List Tree}
    (read : blockItems expression block bound stop tokens = .done trees rest) :
    ∃ used, tokens = used ++ rest ∧
      Continues (Grammar.Stmt Value Nested) (some .rightBrace) (ahead stop tokens).kind used
        trees := by
  induction bound generalizing tokens trees with
  | nil =>
      simp only [blockItems, pure_done_iff] at read
      obtain ⟨rfl, rfl⟩ := read
      exact ⟨[], rfl, .nil⟩
  | cons _ bound ih =>
      simp only [blockItems, bind_eq_done_iff, peek_done_iff] at read
      obtain ⟨_, _, ⟨rfl, rfl⟩, read⟩ := read
      split at read
      next =>
        simp only [pure_done_iff] at read
        obtain ⟨rfl, rfl⟩ := read
        exact ⟨[], rfl, .nil⟩
      next goes =>
        simp only [bind_eq_done_iff, pure_done_iff] at read
        obtain ⟨_, _, first, _, _, more, rfl, rfl⟩ := read
        refine item_continues sound nested starts ⟨?_, ?_⟩ first (ih more)
        · exact fun eof => goes (.inr eof)
        · exact fun closes => goes (.inl (Option.some.inj closes))

/-- The line of a body does not matter where there is nothing in it. -/
theorem body_ahead {Item : Grammar.Phrase} {stop : Position} {used rest : List Token}
    {trees : List Tree} (named : Grammar.Named Item) (body : Grammar.Body Item used trees) :
    Tree.body (ahead stop (used ++ rest)).place.line trees =
      Tree.body (Grammar.line used) trees := by
  cases used with
  | nil =>
      rw [body.eq_nil_of_nil named]
      rfl
  | cons first others => rfl

theorem labelledBlock_reads (sound : Reads expression Value) (nested : Reads block Nested)
    (starts : Grammar.Named Nested) :
    Reads (labelledBlock expression block) (Grammar.Labelled (Grammar.Stmt Value Nested)) := by
  intro stop tokens tree rest read
  simp (disch := decide) only [labelledBlock, bind_eq_done_iff, peek_done_iff, expect_done_iff,
    pure_done_iff] at read
  obtain ⟨_, _, ⟨rfl, rfl⟩, _, _, title, labelTrees, _, between, opening, _, ⟨rfl, opens⟩, _, _,
    ⟨rfl, rfl⟩, trees, _, loop, closing, _, ⟨rfl, closes⟩, rfl, rfl⟩ := read
  obtain ⟨token, name, rfl, named, rfl⟩ := identifier_done title
  obtain ⟨labels, rfl, labelled⟩ := labels_reads between
  obtain ⟨inner, rfl, body, _⟩ := blockItems_reads sound nested starts _ loop
  refine ⟨token :: (labels ++ opening :: (inner ++ [closing])), by simp, ?_⟩
  rw [body_ahead (Grammar.Stmt.named starts) body]
  exact .mk named labelled opens body closes

theorem block_reads (depth : Nat) : Reads (Tree.block depth) (Grammar.Block depth) := by
  induction depth with
  | zero =>
      intro stop tokens tree rest read
      cases read
  | succ depth ih =>
      exact labelledBlock_reads (expression_reads depth) ih (Grammar.Block.named depth)

/-! ### Documents -/

/-- Where the items of a document have no faults, they are a body up to an end token. -/
theorem items_reads (sound : Reads (Tree.expression maxNesting) Value)
    (nested : Reads (Tree.block maxNesting) Nested) (starts : Grammar.Named Nested)
    {stop : Position} (bound : List Token) {tokens : List Token}
    (enough : tokens.length ≤ bound.length) (faultless : (items stop bound tokens).faults = []) :
    ∃ used rest, tokens = used ++ rest ∧ (∀ token ∈ rest.head?, token.kind = .eof) ∧
      Continues (Grammar.Stmt Value Nested) none (ahead stop tokens).kind used
        (items stop bound tokens).trees := by
  induction bound generalizing tokens with
  | nil =>
      cases tokens with
      | nil => exact ⟨[], [], rfl, nofun, .nil⟩
      | cons => cases enough
  | cons _ bound ih =>
      cases tokens with
      | nil => exact ⟨[], [], rfl, nofun, .nil⟩
      | cons token tokens =>
          by_cases ends : token.kind = .eof
          · refine ⟨[], token :: tokens, rfl, ?_, ?_⟩
            · intro first same
              cases same
              exact ends
            · simp only [items, ends, ↓reduceIte]
              exact .nil
          · simp only [items, ends, ↓reduceIte] at faultless ⊢
            cases read : item (Tree.expression maxNesting) (Tree.block maxNesting) none token.kind
                stop (token :: tokens) with
            | failed fault left =>
                rw [read] at faultless
                cases faultless
            | done trees left =>
                rw [read] at faultless
                change item _ _ _ (ahead stop (token :: tokens)).kind _ _ = _ at read
                obtain ⟨first, same, nonempty, _⟩ := item_done sound nested starts read
                have shorter : left.length ≤ bound.length := by
                  have taken := List.length_pos_iff.mpr nonempty
                  have whole := congrArg List.length same
                  simp only [List.length_cons, List.length_append] at enough whole
                  omega
                have goes : (ahead stop (token :: tokens)).kind ≠ .eof ∧
                    some (ahead stop (token :: tokens)).kind ≠ none := ⟨ends, nofun⟩
                obtain ⟨others, rest, rfl, last, next⟩ := ih shorter faultless
                obtain ⟨used, whole, continues⟩ :=
                  item_continues sound nested starts goes read ⟨others, rfl, next⟩
                exact ⟨used, rest, whole, last, continues⟩

/-- The tree of a document is that of a body, which ends at an end token or with the tokens, of
whatever is known of expressions and blocks. -/
theorem ofTokens_reads_body (sound : Reads (Tree.expression maxNesting) Value)
    (nested : Reads (Tree.block maxNesting) Nested) (starts : Grammar.Named Nested)
    {tokens : List Token} {tree : Tree} (read : ofTokens tokens = .ok tree) :
    ∃ used rest line trees, (splitEnd tokens).1 = used ++ rest ∧
      (∀ token ∈ rest.head?, token.kind = .eof) ∧
      Grammar.Body (Grammar.Stmt Value Nested) used trees ∧
      tree = Grammar.document line trees := by
  unfold ofTokens at read
  split at read
  next inner stop split =>
    dsimp only at read
    split at read
    next faultless =>
      cases read
      obtain ⟨used, rest, rfl, last, body, _⟩ :=
        items_reads sound nested starts inner (Nat.le_refl _) (List.isEmpty_iff.mp faultless)
      exact ⟨used, rest, _, _, by rw [split], last, body, rfl⟩
    next => cases read

/-- The tree of a document is that of a document of the grammar. -/
theorem ofTokens_reads {tokens : List Token} {tree : Tree} (read : ofTokens tokens = .ok tree) :
    ∃ used rest line trees, (splitEnd tokens).1 = used ++ rest ∧
      (∀ token ∈ rest.head?, token.kind = .eof) ∧ Grammar.Document maxNesting used trees ∧
      tree = Grammar.document line trees :=
  ofTokens_reads_body (expression_reads maxNesting) (block_reads maxNesting)
    (Grammar.Block.named maxNesting) read

/-- Whether some tokens have a tree that passes a test can be evaluated. -/
theorem exists_of_any {tokens : List Token} {test : Tree → Bool}
    (found : (ofTokens tokens).toOption.any test = true) :
    ∃ tree, ofTokens tokens = .ok tree ∧ test tree = true := by
  cases read : ofTokens tokens with
  | error faults =>
      rw [read] at found
      cases found
  | ok tree =>
      rw [read] at found
      exact ⟨tree, rfl, found⟩

end ConfigLang.Tree
