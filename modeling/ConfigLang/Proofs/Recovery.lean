import ConfigLang.Proofs.Composition
/-!
Faulty lines. A statement without brackets is read on its own line, whatever comes behind the
newline, so that each line of a document is reported as if it stood alone. There is one exception.
Behind a dot that ends its line a name is looked for in the newline, and the newline is taken where
it is none: what is skipped begins behind the line, and so the next line is skipped, whatever is
wrong there.
-/

set_option autoImplicit false

namespace ConfigLang

/-- The kinds that may stand on a line: all but newlines, the end and brackets. -/
def Kind.isInline : Kind → Bool
  | .newline | .eof | .leftParen | .rightParen | .leftBrace | .rightBrace | .leftBracket
  | .rightBracket => false
  | _ => true

/-- Tokens that make a line: no newline, end or bracket is among them, and the last of them is no
binary operator, for newlines may stand behind one. -/
structure IsLine (tokens : List Token) : Prop where
  inside : ∀ token ∈ tokens, token.kind.isInline = true
  complete : ∀ last ∈ tokens.getLast?, last.kind.isBinaryOperator = false

theorem isLine_iff {tokens : List Token} :
    IsLine tokens ↔ (∀ token ∈ tokens, token.kind.isInline = true) ∧
      ∀ last ∈ tokens.getLast?, last.kind.isBinaryOperator = false :=
  ⟨fun is => ⟨is.inside, is.complete⟩, fun is => ⟨is.1, is.2⟩⟩

instance (tokens : List Token) : Decidable (IsLine tokens) :=
  decidable_of_iff _ isLine_iff.symm

theorem mem_getLast?_of_suffix {tokens left : List Token} {last : Token} (suffix : left <:+ tokens)
    (ends : last ∈ left.getLast?) : last ∈ tokens.getLast? := by
  obtain ⟨taken, rfl⟩ := suffix
  exact List.mem_getLast?_append_of_mem_getLast? ends

theorem IsLine.of_suffix {tokens left : List Token} (is : IsLine tokens)
    (suffix : left <:+ tokens) : IsLine left where
  inside token member := is.inside token (suffix.subset member)
  complete last ends := is.complete last (mem_getLast?_of_suffix suffix ends)

theorem IsLine.ne {tokens : List Token} {token : Token} {kind : Kind} (is : IsLine tokens)
    (member : token ∈ tokens) (outside : kind.isInline = false) : token.kind ≠ kind := by
  intro same
  have inline := is.inside token member
  rw [same, outside] at inline
  cases inline

namespace Reader

variable {α β : Type} {feed : Token} {line left : List Token}

/-- How a reader takes what is left of a line. It is done or fails before the newline, or it
fails behind a last dot, with the newline taken. What comes behind the newline does not count. -/
inductive OnLine (reader : Reader α) (feed : Token) (line : List Token) : Prop
  | done {value : α} {left : List Token} (suffix : left <:+ line)
      (read : ∀ stop later,
        reader stop (line ++ feed :: later) = .done value (left ++ feed :: later))
  | failed {fault : Fault} {left : List Token} (suffix : left <:+ line)
      (read : ∀ stop later,
        reader stop (line ++ feed :: later) = .failed fault (left ++ feed :: later))
  | overrun {fault : Fault} {last : Token} (ends : last ∈ line.getLast?) (dotted : last.kind = .dot)
      (read : ∀ stop later, reader stop (line ++ feed :: later) = .failed fault later)

namespace OnLine

/-- A reader that goes on as another one does behind some tokens of the line. -/
theorem of_rest {reader : Reader α} {other : Reader α} (suffix : left <:+ line)
    (same : ∀ stop later,
      reader stop (line ++ feed :: later) = other stop (left ++ feed :: later))
    (onLine : OnLine other feed left) : OnLine reader feed line := by
  cases onLine with
  | done inner read =>
      exact .done (inner.trans suffix) fun stop later => (same stop later).trans (read stop later)
  | failed inner read =>
      exact .failed (inner.trans suffix) fun stop later => (same stop later).trans (read stop later)
  | overrun ends dotted read =>
      exact .overrun (mem_getLast?_of_suffix suffix ends) dotted fun stop later =>
        (same stop later).trans (read stop later)

theorem of_eq {reader other : Reader α}
    (same : ∀ stop later, reader stop (line ++ feed :: later) = other stop (line ++ feed :: later))
    (onLine : OnLine other feed line) : OnLine reader feed line :=
  of_rest (List.suffix_refl line) same onLine

protected theorem pure (value : α) : OnLine (pure value) feed line :=
  .done (List.suffix_refl line) fun _ _ => rfl

protected theorem bind {first : Reader α} {next : α → Reader β} (before : OnLine first feed line)
    (after : ∀ value left, left <:+ line →
      (∀ stop later, first stop (line ++ feed :: later) = .done value (left ++ feed :: later)) →
      OnLine (next value) feed left) :
    OnLine (first >>= next) feed line := by
  cases before with
  | @done value left suffix read =>
      exact of_rest suffix (fun stop later => bind_of_done (read stop later))
        (after value left suffix read)
  | failed suffix read => exact .failed suffix fun stop later => bind_of_failed (read stop later)
  | overrun ends dotted read =>
      exact .overrun ends dotted fun stop later => bind_of_failed (read stop later)

theorem ahead_line (stop : Position) (later : List Token) :
    ahead stop (line ++ feed :: later) = line.head?.getD feed := by
  cases line with
  | nil | cons => rfl

theorem head?_line (later : List Token) :
    (line ++ feed :: later).head?.map Token.kind = some (line.head?.getD feed).kind := by
  cases line with
  | nil | cons => rfl

protected theorem peek {next : Token → Reader β}
    (after : OnLine (next (line.head?.getD feed)) feed line) :
    OnLine (peek >>= next) feed line := by
  apply of_eq _ after
  intro stop later
  rw [peek_bind, ahead_line]

protected theorem advance {token : Token} {next : Token → Reader β}
    (after : OnLine (next token) feed line) : OnLine (advance >>= next) feed (token :: line) :=
  of_rest (List.suffix_cons token line) (fun _ _ => rfl) after

protected theorem ite {condition : Prop} [Decidable condition] {first second : Reader α}
    (holds : condition → OnLine first feed line) (fails : ¬condition → OnLine second feed line) :
    OnLine (if condition then first else second) feed line := by
  split
  next held => exact holds held
  next failed => exact fails failed

protected theorem failWith (cause : Kind → Cause) :
    OnLine (failWith cause : Reader α) feed line := by
  apply OnLine.failed (List.suffix_refl line)
  intro stop later
  rw [failWith_eq, ahead_line]

protected theorem expect {kind : Kind} (other : feed.kind ≠ kind) :
    OnLine (expect kind) feed line := by
  have fails (unlike : (line.head?.getD feed).kind ≠ kind) : OnLine (expect kind) feed line := by
    apply of_eq _ (OnLine.failWith (.missing kind))
    intro stop later
    apply expect_of_ne
    rwa [ahead_line]
  cases line with
  | nil => exact fails other
  | cons token line =>
      by_cases same : token.kind = kind
      · exact .done (List.suffix_cons token line) fun stop later => expect_of_kind same
      · exact fails same

protected theorem tooDeep : OnLine (tooDeep : Reader α) feed line :=
  .failWith _

/-- A name, or a token that is none. -/
protected theorem identifier (token : Token) : OnLine identifier feed (token :: line) := by
  apply OnLine.advance
  split
  · exact .pure _
  · exact .failed (List.suffix_refl line) fun _ _ => rfl

protected theorem single (rule : Rule) (token : Token) :
    OnLine (single rule) feed (token :: line) :=
  .advance (.pure _)

end OnLine

theorem identifier_newline {stop : Position} {later : List Token} (feeds : feed.kind = .newline) :
    identifier stop (feed :: later) = .failed ⟨feed.place, .noIdentifier⟩ later := by
  unfold identifier
  rw [advance_bind_cons, feeds]
  rfl

end Reader

namespace Tree

open Reader ConfigLang.Part

variable {feed : Token} {line : List Token} {expression block : Reader Tree}

theorem alone_onLine {reader : Reader Tree} (onLine : OnLine reader feed line) :
    OnLine (alone reader) feed line :=
  onLine.bind fun _ _ _ _ => .pure _

/-! ### Terms -/

/-- Behind a dot. Where the dot is the last on its line, the newline is taken for the name. -/
theorem dotProjection_onLine {dot : Token} (feeds : feed.kind = .newline)
    (dotted : dot.kind = .dot) : OnLine dotProjection feed (dot :: line) := by
  cases line with
  | nil =>
      have read : ∀ stop later, dotProjection stop (dot :: feed :: later) =
          .failed ⟨feed.place, .noIdentifier⟩ later := by
        intro stop later
        rw [dotProjection, advance_bind_cons, peek_bind, ahead_cons, feeds]
        exact bind_of_failed (identifier_newline feeds)
      exact .overrun rfl dotted read
  | cons token line =>
      apply OnLine.advance
      apply OnLine.peek
      unfold member
      split
      · exact .advance (.pure _)
      · exact (OnLine.single .int token).bind fun _ _ _ _ => .pure _
      · exact (OnLine.identifier token).bind fun _ _ _ _ => .pure _

/-- One step, and then the others as if they were the first. -/
theorem repeating_projections (number height : Nat) (term : Tree) {stop : Position}
    {tokens : List Token} :
    repeating (fun bound => projections number bound height term) stop tokens =
      (do
        let ahead ← peek
        if ahead.kind = .dot ∨ ahead.kind = .leftBracket then
          if maxTermHeight < height + 2 then tooDeep
          else
            let step ← projection ahead.kind
            repeating fun bound => projections number bound (height + 2) (project number term step)
        else return term : Reader Tree) stop tokens := by
  change projections number (⟨.eof, stop⟩ :: tokens) height term stop tokens = _
  rw [projections, peek_bind, peek_bind]
  split
  next steps =>
    split
    · rfl
    · apply Reader.bind_congr
      intro step left taken
      have shorter := projection_length steps taken
      have lasting := projections_lasting number (height + 2) (project number term step)
      exact (lasting.repeating shorter).symm
  next => rfl

theorem projections_onLine (feeds : feed.kind = .newline) (is : IsLine line) (number height : Nat)
    (term : Tree) :
    OnLine (repeating fun bound => projections number bound height term) feed line := by
  induction size : line.length using Nat.strongRecOn generalizing line height term with
  | ind length ih =>
      apply OnLine.of_eq fun stop later => repeating_projections number height term
      apply OnLine.peek
      cases line with
      | nil =>
          have ends : ¬(feed.kind = .dot ∨ feed.kind = .leftBracket) := by simp [feeds]
          rw [List.head?_nil, Option.getD_none, if_neg ends]
          exact .pure _
      | cons token line =>
          rw [List.head?_cons, Option.getD_some]
          apply OnLine.ite
          · intro steps
            have dotted : token.kind = .dot :=
              steps.resolve_right (is.ne List.mem_cons_self rfl)
            apply OnLine.ite (fun _ => .tooDeep)
            intro _
            have first : OnLine (projection token.kind) feed (token :: line) := by
              rw [projection, if_pos dotted]
              exact dotProjection_onLine feeds dotted
            apply first.bind
            intro step left suffix read
            have shorter : (left ++ [feed]).length < (token :: line ++ [feed]).length :=
              projection_length (.inl dotted) (read .start [])
            rw [List.length_append, List.length_append] at shorter
            exact ih left.length (by omega) (is.of_suffix suffix) _ _ rfl
          · intro _
            exact .pure _

theorem named_onLine {token : Token} (feeds : feed.kind = .newline) (is : IsLine (token :: line)) :
    OnLine (named expression) feed (token :: line) := by
  have unopened : ¬some (line.head?.getD feed).kind = some .leftParen := by
    cases line with
    | nil => simp [feeds]
    | cons second line =>
        intro opens
        exact is.ne (List.mem_cons_of_mem token List.mem_cons_self) rfl (Option.some.inj opens)
  apply OnLine.of_eq _ (alone_onLine (OnLine.identifier token))
  intro stop later
  rw [named, peekSecond_bind, List.cons_append, List.tail_cons, OnLine.head?_line, if_neg unopened]

theorem primary_onLine (feeds : feed.kind = .newline) (is : IsLine line) :
    OnLine (primary expression) feed line := by
  apply OnLine.peek
  have items : OnLine (primaryItems expression (line.head?.getD feed).kind) feed line := by
    cases line with
    | nil =>
        rw [List.head?_nil, Option.getD_none, feeds]
        exact .failWith _
    | cons token line =>
        rw [List.head?_cons, Option.getD_some]
        cases kind : token.kind with
        | int | float | string => exact alone_onLine (.single _ token)
        | ident => exact named_onLine feeds is
        | leftBracket | leftBrace | leftParen => exact absurd kind (is.ne List.mem_cons_self rfl)
        | _ => exact .failWith _
  exact items.bind fun _ _ _ _ => .pure _

theorem term_onLine (feeds : feed.kind = .newline) (is : IsLine line) :
    OnLine (term expression) feed line := by
  apply OnLine.peek
  apply (primary_onLine feeds is).bind
  intro start left suffix _
  exact projections_onLine feeds (is.of_suffix suffix) _ _ _

/-! ### Expressions -/

theorem operand_onLine (feeds : feed.kind = .newline) (is : IsLine line) :
    OnLine (operand expression) feed line := by
  apply OnLine.peek
  apply OnLine.ite
  · intro signed
    cases line with
    | nil => simp [feeds] at signed
    | cons sign line =>
        apply OnLine.advance
        have left := is.of_suffix (List.suffix_cons sign line)
        exact (term_onLine feeds left).bind fun _ _ _ _ => .pure _
  · intro _
    exact term_onLine feeds is

/-- An operator is not the last token of its line, so that no newline stands behind it. -/
theorem operation_onLine (feeds : feed.kind = .newline)
    (onLine : ∀ {line}, IsLine line → OnLine expression feed line) (is : IsLine line) :
    OnLine (operation expression) feed line := by
  apply OnLine.peek
  apply (operand_onLine feeds is).bind
  intro before left suffix _
  have rest := is.of_suffix suffix
  apply OnLine.peek
  apply OnLine.ite
  · intro operator
    cases left with
    | nil => simp [feeds, Kind.isBinaryOperator] at operator
    | cons sign left =>
        apply OnLine.advance
        have behind := rest.of_suffix (List.suffix_cons sign left)
        apply OnLine.bind
        · cases left with
          | nil => exact absurd operator (by simp [rest.complete sign rfl])
          | cons token left =>
              apply OnLine.done (List.suffix_refl _)
              intro stop later
              have past : token.kind ≠ .newline := behind.ne List.mem_cons_self rfl
              exact newLines_of_past (pastNewlines_of_kind rfl past)
        · intro lines left suffix _
          exact (onLine (behind.of_suffix suffix)).bind fun _ _ _ _ => .pure _
  · intro _
    exact .pure _

theorem expression_onLine (feeds : feed.kind = .newline) (depth : Nat) (is : IsLine line) :
    OnLine (Tree.expression depth) feed line := by
  induction depth generalizing line with
  | zero => exact .tooDeep
  | succ depth ih => exact operation_onLine feeds ih is

/-! ### Statements -/

theorem attr_onLine {token : Token} (feeds : feed.kind = .newline)
    (onLine : ∀ {line}, IsLine line → OnLine expression feed line) (is : IsLine (token :: line)) :
    OnLine (attr expression) feed (token :: line) := by
  apply OnLine.peek
  apply (OnLine.identifier token).bind
  intro key left suffix _
  apply OnLine.bind (.expect (by simp [feeds]))
  intro sign rest suffix' _
  exact (onLine (is.of_suffix (suffix'.trans suffix))).bind fun _ _ _ _ => .pure _

theorem labels_onLine (feeds : feed.kind = .newline) : OnLine labels feed line := by
  let test (token : Token) : Bool := (label? token).isSome
  have ends : test feed = false := by
    simp only [test, label?, feeds]
    rfl
  apply OnLine.done (List.dropWhile_suffix test)
  intro stop later
  obtain ⟨taken, left⟩ := Scan.takeWhile_separated line later ends
  rw [labels, taken, left]

/-- Without a brace on the line there is no block. -/
theorem block_onLine {token : Token} (feeds : feed.kind = .newline) (depth : Nat)
    (is : IsLine (token :: line)) : OnLine (Tree.block depth) feed (token :: line) := by
  cases depth with
  | zero => exact .tooDeep
  | succ depth =>
      apply OnLine.peek
      apply (OnLine.identifier token).bind
      intro name left suffix _
      apply (labels_onLine feeds).bind
      intro labels rest suffix' _
      apply OnLine.bind (.expect (by simp [feeds]))
      intro opening behind _ read
      obtain ⟨whole, opens⟩ := (expect_done_iff (by decide)).mp (read .start [])
      have rests := is.of_suffix (suffix'.trans suffix)
      cases rest with
      | nil =>
          have first : feed = opening := (List.cons.inj whole).1
          rw [← first, feeds] at opens
          cases opens
      | cons token rest =>
          have first : token = opening := (List.cons.inj whole).1
          rw [← first] at opens
          exact absurd opens (rests.ne List.mem_cons_self rfl)

theorem clause_onLine {token : Token} (feeds : feed.kind = .newline) (depth : Nat)
    (is : IsLine (token :: line)) :
    OnLine (clause (Tree.expression depth) (Tree.block depth)) feed (token :: line) := by
  have choice : OnLine (if some (line.head?.getD feed).kind = some .assign then
      attr (Tree.expression depth) else Tree.block depth) feed (token :: line) := by
    apply OnLine.ite
    · intro _
      exact attr_onLine feeds (fun inner => expression_onLine feeds depth inner) is
    · intro _
      exact block_onLine feeds depth is
  apply OnLine.of_eq _ choice
  intro stop later
  rw [clause, peekSecond_bind, List.cons_append, List.tail_cons, OnLine.head?_line]

theorem statement_onLine {token : Token} (feeds : feed.kind = .newline) (depth : Nat)
    (is : IsLine (token :: line)) :
    OnLine (statement (Tree.expression depth) (Tree.block depth) none) feed (token :: line) := by
  apply (clause_onLine feeds depth is).bind
  intro tree left suffix _
  apply OnLine.peek
  apply OnLine.ite
  · intro _
    exact .pure _
  · intro _
    exact .failWith _

theorem item_onLine {token : Token} (feeds : feed.kind = .newline) (depth : Nat)
    (is : IsLine (token :: line)) :
    OnLine (item (Tree.expression depth) (Tree.block depth) none token.kind) feed
      (token :: line) := by
  apply OnLine.ite
  · intro newline
    exact absurd newline (is.ne List.mem_cons_self rfl)
  · intro _
    exact alone_onLine (statement_onLine feeds depth is)

/-! ### Items line by line -/

variable {stop : Position} {later left : List Token} {trees : List Tree}

/-- Without brackets what is left of a line is skipped up to its newline. -/
theorem recover_line (feeds : feed.kind = .newline) (is : IsLine line) :
    recover 0 (line ++ feed :: later) = feed :: later := by
  induction line with
  | nil => simp [recover, feeds]
  | cons token line ih =>
      have rest := ih (is.of_suffix (List.suffix_cons token line))
      have inline := is.inside token List.mem_cons_self
      rw [List.cons_append, recover]
      cases kind : token.kind with
      | eof | newline | leftBrace | leftBracket | leftParen | rightBrace | rightBracket
      | rightParen => exact absurd kind (is.ne List.mem_cons_self rfl)
      | _ => exact rest

theorem recover_suffix (depth : Nat) (tokens : List Token) : recover depth tokens <:+ tokens := by
  induction tokens generalizing depth with
  | nil => exact List.suffix_refl _
  | cons token tokens ih =>
      have skips : ∀ depth, recover depth tokens <:+ token :: tokens := by
        intro depth
        exact (ih depth).trans (List.suffix_cons token tokens)
      unfold recover
      split
      · exact List.suffix_refl _
      · split
        · exact List.suffix_refl _
        · exact skips depth
      all_goals exact skips _

/-- A statement that has been read ends where its line does. -/
theorem item_line_ends {token : Token} {depth : Nat} (is : IsLine (token :: line))
    (suffix : left <:+ token :: line)
    (read : item (Tree.expression depth) (Tree.block depth) none token.kind stop
      (token :: line ++ feed :: later) = .done trees (left ++ feed :: later)) : left = [] := by
  have other : token.kind ≠ .newline := is.ne List.mem_cons_self rfl
  rw [item, if_neg other] at read
  obtain ⟨tree, single, _⟩ := alone_done_iff.mp read
  obtain ⟨_, _, _, ends⟩ := statement_done (expression_reads depth) (block_reads depth) single
  cases left with
  | nil => rfl
  | cons first left =>
      have rest := is.of_suffix suffix
      rcases ends with newline | ended | closing
      · exact absurd newline (rest.ne List.mem_cons_self rfl)
      · exact absurd ended (rest.ne List.mem_cons_self rfl)
      · cases closing

namespace Items

/-- The items without the newlines between them. -/
def gist (items : Items) : Items :=
  { items with trees := items.trees.filter isStatement }

def append (first second : Items) : Items :=
  ⟨first.trees ++ second.trees, first.faults ++ second.faults⟩

theorem append_empty (items : Items) : items.append .empty = items := by
  simp [append, empty]

end Items

/-- Without newlines these are the items of the tokens, whatever list bounds their number. -/
def Yields (stop : Position) (tokens : List Token) (yield : Items) : Prop :=
  ∀ bound : List Token, tokens.length ≤ bound.length → (items stop bound tokens).gist = yield

theorem yields_nil : Yields stop [] .empty := by
  intro bound _
  cases bound with
  | nil | cons => rfl

theorem yields_done {token : Token} {tokens : List Token} {yield : Items}
    (inside : token.kind ≠ .eof)
    (read : item (Tree.expression maxNesting) (Tree.block maxNesting) none token.kind stop
      (token :: tokens) = .done trees left)
    (shorter : left.length ≤ tokens.length) (follow : Yields stop left yield) :
    Yields stop (token :: tokens) (Items.append ⟨trees.filter isStatement, []⟩ yield) := by
  intro bound enough
  cases bound with
  | nil => cases enough
  | cons first bound =>
      have rest := follow bound (Nat.le_trans shorter (Nat.le_of_succ_le_succ enough))
      simp only [items, inside, ↓reduceIte, read]
      simp only [Items.gist, Items.add, List.filter_append, Items.append, ← rest,
        List.nil_append]

theorem yields_failed {token : Token} {tokens : List Token} {fault : Fault} {yield : Items}
    (inside : token.kind ≠ .eof)
    (read : item (Tree.expression maxNesting) (Tree.block maxNesting) none token.kind stop
      (token :: tokens) = .failed fault left)
    (shorter : (recover 0 left).length ≤ tokens.length)
    (follow : Yields stop (recover 0 left) yield) :
    Yields stop (token :: tokens) (Items.append ⟨[], [fault]⟩ yield) := by
  intro bound enough
  cases bound with
  | nil => cases enough
  | cons first bound =>
      have rest := follow bound (Nat.le_trans shorter (Nat.le_of_succ_le_succ enough))
      simp only [items, inside, ↓reduceIte, read]
      simp only [Items.gist, Items.blame, Items.append, ← rest, List.nil_append, List.cons_append]

theorem gist_newlines {first : Token} {lines : List Token}
    (newlines : Grammar.Newlines (feed :: lines)) (past : PastNewlines later) (bound : List Token) :
    (items stop (first :: bound) (feed :: lines ++ later)).gist =
      (items stop bound later).gist := by
  have newline := newlines feed List.mem_cons_self
  have read : item (Tree.expression maxNesting) (Tree.block maxNesting) none feed.kind stop
      (feed :: lines ++ later) = .done (Grammar.newLines (feed :: lines)) later := by
    rw [item, if_pos newline]
    exact newLines_append newlines past
  have inside : feed.kind ≠ .eof := by simp [newline]
  rw [List.cons_append] at read ⊢
  simp only [items, inside, ↓reduceIte, read, Items.gist, Items.add, List.filter_append,
    filter_newLines, List.nil_append]

/-- A newline goes into one item with those behind it, which leaves no trace. -/
theorem yields_newline {yield : Items} (feeds : feed.kind = .newline)
    (follow : Yields stop later yield) : Yields stop (feed :: later) yield := by
  obtain ⟨lines, rest, rfl, newlines, past, -⟩ := newLines_runs stop later
  have longer : Grammar.Newlines (feed :: lines) := List.forall_mem_cons.mpr ⟨feeds, newlines⟩
  intro bound enough
  cases bound with
  | nil => cases enough
  | cons first bound =>
      have whole : (items stop (first :: bound) (feed :: (lines ++ rest))).gist =
          (items stop bound rest).gist := gist_newlines longer past bound
      rw [whole]
      cases lines with
      | nil => exact follow bound (Nat.le_of_succ_le_succ enough)
      | cons line lines =>
          have rest := follow (first :: bound) (Nat.le_of_succ_le enough)
          rw [gist_newlines newlines past] at rest
          exact rest

end Tree

/-- A line with the newline that ends it. -/
structure Token.Line where
  tokens : List Token
  feed : Token
  is : IsLine tokens
  feeds : feed.kind = .newline

namespace Token.Line

open ConfigLang.Tree Reader

def all (line : Line) : List Token :=
  line.tokens ++ [line.feed]

/-- What is read of a line that stands alone. -/
def items (line : Line) : Items :=
  (Tree.items line.feed.place line.all line.all).gist

/-- Whether a line fails with its newline taken, so that nothing is left of it. -/
def overruns (line : Line) : Bool :=
  match item (expression maxNesting) (block maxNesting) none
      (ahead line.feed.place line.all).kind line.feed.place line.all with
  | .failed _ [] => true
  | _ => false

/-- The lines that are reported: all but those below a line that overruns. -/
def heard : List Line → List Line
  | [] => []
  | [line] => [line]
  | line :: next :: lines =>
    if line.overruns then line :: heard lines else line :: heard (next :: lines)

def join (lines : List Line) : List Token :=
  lines.flatMap all

theorem all_inside (line : Line) : ∀ token ∈ line.all, token.kind ≠ .eof := by
  intro token member
  rcases List.mem_append.mp member with inner | feed
  · exact line.is.ne inner rfl
  · rw [List.mem_singleton.mp feed, line.feeds]
    decide

theorem join_inside (lines : List Line) : ∀ token ∈ join lines, token.kind ≠ .eof := by
  intro token member
  obtain ⟨line, _, inner⟩ := List.mem_flatMap.mp member
  exact line.all_inside token inner

/-- What is read of one line behind the other. -/
def collect (lines : List Line) : Items :=
  lines.foldr (fun line items => line.items.append items) .empty

/-- Where reading goes on behind a line. -/
def next (line : Line) (later : List Token) : List Token :=
  if line.overruns then recover 0 later else later

/-- A line gives the same, whatever comes behind it. -/
def Gives (line : Line) (own : Items) : Prop :=
  ∀ stop later yield, Yields stop (line.next later) yield →
    Yields stop (line.all ++ later) (own.append yield)

theorem gives_nil {feed : Token} (is : IsLine []) (feeds : feed.kind = .newline) :
    overruns ⟨[], feed, is, feeds⟩ = false ∧ Gives ⟨[], feed, is, feeds⟩ .empty := by
  have goes : overruns ⟨[], feed, is, feeds⟩ = false := by
    simp [overruns, all, item, feeds, newLines]
  refine ⟨goes, ?_⟩
  intro stop later yield follow
  rw [next, goes] at follow
  exact yields_newline feeds follow

section Cases

variable {token feed : Token} {tokens left : List Token} {trees : List Tree} {fault : Fault}

theorem overruns_of_failed (is : IsLine (token :: tokens)) (feeds : feed.kind = .newline)
    (read : item (expression maxNesting) (block maxNesting) none token.kind feed.place
      (token :: tokens ++ [feed]) = .failed fault left) :
    overruns ⟨token :: tokens, feed, is, feeds⟩ = left.isEmpty := by
  rw [List.cons_append] at read
  simp only [overruns, all, List.cons_append, ahead_cons, read]
  cases left with
  | nil | cons => rfl

/-- A statement that fills its line. -/
theorem gives_done (is : IsLine (token :: tokens)) (feeds : feed.kind = .newline)
    (read : ∀ stop later, item (expression maxNesting) (block maxNesting) none token.kind stop
      (token :: tokens ++ feed :: later) = .done trees (feed :: later)) :
    overruns ⟨token :: tokens, feed, is, feeds⟩ = false ∧
      Gives ⟨token :: tokens, feed, is, feeds⟩ ⟨trees.filter isStatement, []⟩ := by
  have goes : overruns ⟨token :: tokens, feed, is, feeds⟩ = false := by
    have alone := read feed.place []
    rw [List.cons_append] at alone
    simp only [overruns, all, List.cons_append, ahead_cons, alone]
  have inside : token.kind ≠ .eof := is.ne List.mem_cons_self rfl
  refine ⟨goes, ?_⟩
  intro stop later yield follow
  rw [next, goes] at follow
  rw [all, List.append_assoc]
  apply yields_done inside (read stop later) _ (yields_newline feeds follow)
  simp

/-- A fault on the line, whose rest is skipped. -/
theorem gives_failed (is : IsLine (token :: tokens)) (feeds : feed.kind = .newline)
    (suffix : left <:+ token :: tokens)
    (read : ∀ stop later, item (expression maxNesting) (block maxNesting) none token.kind stop
      (token :: tokens ++ feed :: later) = .failed fault (left ++ feed :: later)) :
    overruns ⟨token :: tokens, feed, is, feeds⟩ = false ∧
      Gives ⟨token :: tokens, feed, is, feeds⟩ ⟨[], [fault]⟩ := by
  have goes : overruns ⟨token :: tokens, feed, is, feeds⟩ = false := by
    rw [overruns_of_failed is feeds (read feed.place [])]
    simp
  have inside : token.kind ≠ .eof := is.ne List.mem_cons_self rfl
  refine ⟨goes, ?_⟩
  intro stop later yield follow
  have skipped : recover 0 (left ++ feed :: later) = feed :: later :=
    recover_line feeds (is.of_suffix suffix)
  rw [next, goes] at follow
  rw [all, List.append_assoc]
  apply yields_failed inside (read stop later)
  · rw [skipped]
    exact (List.suffix_append _ _).length_le
  · rw [skipped]
    exact yields_newline feeds follow

/-- A fault with the newline taken, so that it is the line below that is skipped. -/
theorem gives_overrun (is : IsLine (token :: tokens)) (feeds : feed.kind = .newline)
    (read : ∀ stop later, item (expression maxNesting) (block maxNesting) none token.kind stop
      (token :: tokens ++ feed :: later) = .failed fault later) :
    Gives ⟨token :: tokens, feed, is, feeds⟩ ⟨[], [fault]⟩ := by
  have taken : overruns ⟨token :: tokens, feed, is, feeds⟩ = true :=
    overruns_of_failed is feeds (read feed.place [])
  have inside : token.kind ≠ .eof := is.ne List.mem_cons_self rfl
  intro stop later yield follow
  have shorter := (recover_suffix 0 later).length_le
  rw [next, taken] at follow
  rw [all, List.append_assoc]
  apply yields_failed inside (read stop later) _ follow
  simp
  omega

end Cases

theorem exists_gives (line : Line) :
    ∃ own, line.Gives own ∧ (line.overruns = true →
      own.faults ≠ [] ∧ ∃ last ∈ line.tokens.getLast?, last.kind = .dot) := by
  obtain ⟨tokens, feed, is, feeds⟩ := line
  cases tokens with
  | nil =>
      obtain ⟨goes, gives⟩ := gives_nil is feeds
      exact ⟨.empty, gives, by simp [goes]⟩
  | cons token tokens =>
      cases item_onLine feeds maxNesting is with
      | done suffix read =>
          have whole := item_line_ends is suffix (read .start [])
          subst whole
          obtain ⟨goes, gives⟩ := gives_done is feeds read
          exact ⟨_, gives, by simp [goes]⟩
      | failed suffix read =>
          obtain ⟨goes, gives⟩ := gives_failed is feeds suffix read
          exact ⟨_, gives, by simp [goes]⟩
      | @overrun _ last ends dotted read =>
          exact ⟨_, gives_overrun is feeds read,
            fun _ => ⟨List.cons_ne_nil _ _, last, ends, dotted⟩⟩

theorem next_nil (line : Line) : line.next [] = [] := by
  unfold next
  split
  · rfl
  · rfl

theorem Gives.alone {line : Line} {own : Items} (gives : line.Gives own) (stop : Position) :
    Yields stop line.all own := by
  have empty : Yields stop (line.next []) .empty := by
    rw [next_nil]
    exact yields_nil
  have alone := gives stop [] .empty empty
  rwa [List.append_nil, Items.append_empty] at alone

theorem Gives.eq {line : Line} {own : Items} (gives : line.Gives own) : line.items = own :=
  gives.alone line.feed.place line.all (Nat.le_refl _)

theorem gives (line : Line) : line.Gives line.items := by
  obtain ⟨own, gives, _⟩ := exists_gives line
  rwa [gives.eq]

/-- Only a line that ends in a dot overruns, and it has a fault. -/
theorem overruns_only {line : Line} (overrun : line.overruns = true) :
    line.items.faults ≠ [] ∧ ∃ last ∈ line.tokens.getLast?, last.kind = .dot := by
  obtain ⟨own, gives, only⟩ := exists_gives line
  rw [gives.eq]
  exact only overrun

theorem join_yields (stop : Position) (lines : List Line) :
    Yields stop (join lines) (collect (heard lines)) := by
  fun_induction heard lines with
  | case1 => exact yields_nil
  | case2 line =>
      apply line.gives stop [] .empty
      rw [next_nil]
      exact yields_nil
  | case3 line below lines overrun ih =>
      apply line.gives stop (join (below :: lines))
      rw [next, if_pos overrun]
      have skipped : recover 0 (join (below :: lines)) = below.feed :: join lines := by
        change recover 0 (below.all ++ join lines) = _
        rw [all, List.append_assoc]
        exact recover_line below.feeds below.is
      rw [skipped]
      exact yields_newline below.feeds ih
  | case4 line below lines goes ih =>
      apply line.gives stop (join (below :: lines))
      rwa [next, if_neg goes]

theorem collect_faults (lines : List Line) :
    (collect lines).faults = lines.flatMap fun line => line.items.faults := by
  induction lines with
  | nil => rfl
  | cons line lines ih => exact congrArg (line.items.faults ++ ·) ih

theorem collect_means {lines : List Line} {body : Line → List Statement}
    (means : ∀ line ∈ lines,
      Part.ofTrees line.items.trees = .ok ((body line).map .statement)) :
    Part.ofTrees (collect lines).trees = .ok ((lines.flatMap body).map .statement) := by
  induction lines with
  | nil => rfl
  | cons line lines ih =>
      obtain ⟨first, rest⟩ := List.forall_mem_cons.mp means
      rw [List.flatMap_cons, List.map_append]
      exact Part.ofTrees_append first (ih rest)

theorem heard_eq_self {lines : List Line}
    (goes : ∀ line ∈ lines.dropLast, line.overruns = false) : heard lines = lines := by
  fun_induction heard lines with
  | case1 | case2 => rfl
  | case3 line below lines overrun =>
      have first := goes line List.mem_cons_self
      rw [overrun] at first
      cases first
  | case4 line below lines _ ih =>
      rw [ih]
      intro other member
      exact goes other (List.mem_cons_of_mem line member)

end Token.Line

namespace Document

open ConfigLang.Tree ConfigLang.Part

/-- The faults that a list of tokens is refused for. -/
def faults (tokens : List Token) : List Fault :=
  match ofTokens tokens with
  | .error (.faults faults) => faults
  | _ => []

section Yields

variable {tokens : List Token} {yield : Items}

theorem splitEnd_of_inside (inside : ∀ token ∈ tokens, token.kind ≠ .eof) :
    ∃ stop, splitEnd tokens = (tokens, stop) := by
  unfold splitEnd
  cases ends : tokens.getLast? with
  | none =>
      rw [List.getLast?_eq_none_iff.mp ends]
      exact ⟨.start, rfl⟩
  | some last =>
      have other := inside last (List.mem_of_getLast? ends)
      exact ⟨last.place, if_neg other⟩

theorem statements_of_yields (inside : ∀ token ∈ tokens, token.kind ≠ .eof)
    (yields : ∀ stop, Yields stop tokens yield) (faultless : yield.faults = []) :
    ∃ statements : List Statement, ofTrees yield.trees = .ok (statements.map .statement) := by
  have gist := yields .start tokens (Nat.le_refl _)
  rw [← gist] at faultless ⊢
  exact (itemized_trees (items_itemized tokens inside (Nat.le_refl _) faultless)).2

/-- Without faults the statements are the document. -/
theorem ofTokens_of_yields {statements : List Statement}
    (inside : ∀ token ∈ tokens, token.kind ≠ .eof) (yields : ∀ stop, Yields stop tokens yield)
    (faultless : yield.faults = [])
    (means : ofTrees yield.trees = .ok (statements.map .statement)) :
    ofTokens tokens = .ok ⟨statements⟩ := by
  obtain ⟨stop, split⟩ := splitEnd_of_inside inside
  have gist := yields stop tokens (Nat.le_refl _)
  rw [← gist] at faultless means
  have stand : Stand (items stop tokens tokens).trees statements := means
  have known := (itemized_trees (items_itemized tokens inside (Nat.le_refl _) faultless)).1
  have read : ∃ line, Tree.ofTokens tokens =
      .ok (Grammar.document line (items stop tokens tokens).trees) := by
    have empty : (items stop tokens tokens).faults.isEmpty = true :=
      List.isEmpty_iff.mpr faultless
    unfold Tree.ofTokens
    simp only [split, empty, ↓reduceIte]
    exact ⟨_, rfl⟩
  obtain ⟨line, read⟩ := read
  exact ofTokens_of_document read (stand.hold known)

theorem faults_of_yields (inside : ∀ token ∈ tokens, token.kind ≠ .eof)
    (yields : ∀ stop, Yields stop tokens yield) : faults tokens = yield.faults := by
  cases found : yield.faults with
  | nil =>
      obtain ⟨statements, means⟩ := statements_of_yields inside yields found
      rw [faults, ofTokens_of_yields inside yields found means]
  | cons first more =>
      obtain ⟨stop, split⟩ := splitEnd_of_inside inside
      have gist := yields stop tokens (Nat.le_refl _)
      rw [← gist] at found
      have read : Tree.ofTokens tokens = .error (first :: more) := by
        unfold Tree.ofTokens
        have same : (items stop tokens tokens).faults = first :: more := found
        simp only [split, same, List.isEmpty_cons, Bool.false_eq_true, ↓reduceIte]
      rw [faults, ofTokens_of_faults read]

end Yields

theorem faults_all (line : Token.Line) : faults line.all = line.items.faults :=
  faults_of_yields line.all_inside line.gives.alone

theorem faults_join (lines : List Token.Line) :
    faults (Token.Line.join lines) =
      (Token.Line.heard lines).flatMap fun line => faults line.all := by
  have yields := fun stop => Token.Line.join_yields stop lines
  rw [faults_of_yields (Token.Line.join_inside lines) yields, Token.Line.collect_faults]
  simp only [faults_all]

/-- Lines without faults are the document of their statements. -/
theorem ofTokens_join {lines : List Token.Line} {body : Token.Line → List Statement}
    (faultless : ∀ line ∈ lines, faults line.all = [])
    (means : ∀ line ∈ lines, ofTrees line.items.trees = .ok ((body line).map .statement)) :
    ofTokens (Token.Line.join lines) = .ok ⟨lines.flatMap body⟩ := by
  have goes : ∀ line ∈ lines.dropLast, line.overruns = false := by
    intro line member
    apply Bool.eq_false_iff.mpr
    intro overrun
    have clean := faultless line (List.mem_of_mem_dropLast member)
    rw [faults_all] at clean
    exact (Token.Line.overruns_only overrun).1 clean
  have yields := fun stop => Token.Line.join_yields stop lines
  rw [Token.Line.heard_eq_self goes] at yields
  have clean : (Token.Line.collect lines).faults = [] := by
    rw [Token.Line.collect_faults]
    apply List.flatMap_eq_nil_iff.mpr
    intro line member
    rw [← faults_all]
    exact faultless line member
  exact ofTokens_of_yields (Token.Line.join_inside lines) yields clean
    (Token.Line.collect_means means)

/-- The lines that are heard report what they report alone, one after the other. Where none but the
last line ends in a dot these are all lines. If nothing is wrong with any line, the document is that
of the statements of all lines. -/
theorem ofTokens_lines (lines : List Token.Line) :
    (faults (Token.Line.join lines) =
      (Token.Line.heard lines).flatMap fun line => faults line.all) ∧
    ((∀ line ∈ lines.dropLast, ∀ last ∈ line.tokens.getLast?, last.kind ≠ .dot) →
      faults (Token.Line.join lines) = lines.flatMap fun line => faults line.all) ∧
    ((∀ line ∈ lines, faults line.all = []) →
      ∃ body : Token.Line → List Statement, (∀ line ∈ lines, ofTokens line.all = .ok ⟨body line⟩) ∧
        ofTokens (Token.Line.join lines) = .ok ⟨lines.flatMap body⟩) := by
  refine ⟨faults_join lines, ?_, ?_⟩
  · intro undotted
    have goes : ∀ line ∈ lines.dropLast, line.overruns = false := by
      intro line member
      apply Bool.eq_false_iff.mpr
      intro overrun
      obtain ⟨_, last, ends, dotted⟩ := Token.Line.overruns_only overrun
      exact undotted line member last ends dotted
    have every := faults_join lines
    rwa [Token.Line.heard_eq_self goes] at every
  · intro faultless
    have stand : ∀ line ∈ lines, ∃ statements : List Statement,
        ofTrees line.items.trees = .ok (statements.map .statement) := by
      intro line member
      apply statements_of_yields line.all_inside line.gives.alone
      rw [← faults_all]
      exact faultless line member
    choose! body means using stand
    refine ⟨body, ?_, ofTokens_join faultless means⟩
    intro line member
    have clean := faultless line member
    rw [faults_all] at clean
    exact ofTokens_of_yields line.all_inside line.gives.alone clean (means line member)

/-- Neither a value that is missing nor a block without braces hides the other, and two attributes
are a document of two statements. -/
theorem ofTokens_lines_two :
    (∃ above below : Token.Line, (∀ last ∈ above.tokens.getLast?, last.kind ≠ .dot) ∧
      faults (Token.Line.join [above, below]) =
        [⟨⟨1, 4⟩, .unexpected .expression .newline⟩, ⟨⟨2, 2⟩, .missing .leftBrace .newline⟩]) ∧
    ∃ above below : Token.Line, faults above.all = [] ∧ faults below.all = [] ∧
      ofTokens (Token.Line.join [above, below]) =
        .ok ⟨[.assign "a" (.identifier "x"), .assign "c" (.identifier "y")]⟩ := by
  constructor
  · let above : Token.Line := ⟨[⟨.ident "a", ⟨1, 1⟩⟩, ⟨.assign, ⟨1, 3⟩⟩], ⟨.newline, ⟨1, 4⟩⟩,
      by decide, rfl⟩
    let below : Token.Line := ⟨[⟨.ident "c", ⟨2, 1⟩⟩], ⟨.newline, ⟨2, 2⟩⟩, by decide, rfl⟩
    have undotted : ∀ last ∈ above.tokens.getLast?, last.kind ≠ .dot := by decide
    have whole := (ofTokens_lines [above, below]).2.1 (List.forall_mem_singleton.mpr undotted)
    have first : faults above.all = [⟨⟨1, 4⟩, .unexpected .expression .newline⟩] := by decide
    have second : faults below.all = [⟨⟨2, 2⟩, .missing .leftBrace .newline⟩] := by decide
    rw [List.flatMap_cons, List.flatMap_cons, List.flatMap_nil, first, second] at whole
    exact ⟨above, below, undotted, whole⟩
  · let above : Token.Line := ⟨[⟨.ident "a", ⟨1, 1⟩⟩, ⟨.assign, ⟨1, 3⟩⟩, ⟨.ident "x", ⟨1, 5⟩⟩],
      ⟨.newline, ⟨1, 6⟩⟩, by decide, rfl⟩
    let below : Token.Line := ⟨[⟨.ident "c", ⟨2, 1⟩⟩, ⟨.assign, ⟨2, 3⟩⟩, ⟨.ident "y", ⟨2, 5⟩⟩],
      ⟨.newline, ⟨2, 6⟩⟩, by decide, rfl⟩
    have first : faults above.all = [] := by decide +kernel
    have second : faults below.all = [] := by decide +kernel
    have faultless : ∀ line ∈ [above, below], faults line.all = [] :=
      List.forall_mem_cons.mpr ⟨first, List.forall_mem_singleton.mpr second⟩
    obtain ⟨body, each, whole⟩ := (ofTokens_lines [above, below]).2.2 faultless
    obtain ⟨one, others⟩ := List.forall_mem_cons.mp each
    have two := List.forall_mem_singleton.mp others
    have readAbove : ofTokens above.all = .ok ⟨[.assign "a" (.identifier "x")]⟩ := by
      decide +kernel
    have readBelow : ofTokens below.all = .ok ⟨[.assign "c" (.identifier "y")]⟩ := by
      decide +kernel
    rw [readAbove] at one
    rw [readBelow] at two
    have bodyAbove : [_] = body above := congrArg Document.body (Except.ok.inj one)
    have bodyBelow : [_] = body below := congrArg Document.body (Except.ok.inj two)
    rw [List.flatMap_cons, List.flatMap_cons, List.flatMap_nil, ← bodyAbove, ← bodyBelow] at whole
    exact ⟨above, below, first, second, whole⟩

/-- A dot at the end of a line hides the fault of the line below. -/
theorem faults_below_dot :
    ∃ lines : List Token.Line,
      faults (Token.Line.join lines) = [⟨⟨1, 7⟩, .noIdentifier⟩] ∧
      (lines.flatMap fun line => faults line.all) =
        [⟨⟨1, 7⟩, .noIdentifier⟩, ⟨⟨2, 4⟩, .unexpected .expression .newline⟩] := by
  let first : Token.Line := ⟨[⟨.ident "a", ⟨1, 1⟩⟩, ⟨.assign, ⟨1, 3⟩⟩, ⟨.ident "b", ⟨1, 5⟩⟩,
    ⟨.dot, ⟨1, 6⟩⟩], ⟨.newline, ⟨1, 7⟩⟩, by decide, rfl⟩
  let second : Token.Line := ⟨[⟨.ident "c", ⟨2, 1⟩⟩, ⟨.assign, ⟨2, 3⟩⟩], ⟨.newline, ⟨2, 4⟩⟩,
    by decide, rfl⟩
  exact ⟨[first, second], by decide +kernel, by decide +kernel⟩

end Document

end ConfigLang
