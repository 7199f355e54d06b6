import ConfigLang.Proofs.Ascending
import ConfigLang.Proofs.Recovery
/-!
The order of faults. A text has its faults reported from the front to the end. If it has tokens,
each fault is on a line below the one before: a reader fails at a token that was ahead, what is
skipped ends in front of a newline that is there or behind, and the tokens behind a newline are on
other lines.
-/

set_option autoImplicit false

namespace ConfigLang

/-! ### Where readers fail -/

namespace Reader

/-- A reader takes tokens from the front. Where it fails, the fault is at a token that was ahead,
and what is left begins with that token or behind it. -/
inductive Reports {α : Type} (stop : Position) (tokens : List Token) : Reply α → Prop
  | done {value : α} {rest : List Token} (suffix : rest <:+ tokens) :
      Reports stop tokens (.done value rest)
  | failed {fault : Fault} {left rest : List Token} (suffix : left <:+ tokens)
      (place : fault.place = (ahead stop left).place) (leaves : rest <:+ left) :
      Reports stop tokens (.failed fault rest)

theorem Reports.of_suffix {α : Type} {stop : Position} {tokens left : List Token}
    {reply : Reply α} (reports : Reports stop left reply) (suffix : left <:+ tokens) :
    Reports stop tokens reply := by
  cases reports with
  | done inner => exact .done (inner.trans suffix)
  | failed inner place leaves => exact .failed (inner.trans suffix) place leaves

/-- A reader that does so whatever tokens it is given. -/
def Reporting {α : Type} (reader : Reader α) : Prop :=
  ∀ stop tokens, Reports stop tokens (reader stop tokens)

namespace Reporting

variable {α β : Type}

protected theorem bind {first : Reader α} {next : α → Reader β} (before : Reporting first)
    (behind : ∀ value, Reporting (next value)) : Reporting (first >>= next) := by
  intro stop tokens
  have start := before stop tokens
  cases read : first stop tokens with
  | done value rest =>
      rw [read] at start
      rw [bind_of_done read]
      cases start with
      | done suffix => exact (behind value stop rest).of_suffix suffix
  | failed fault rest =>
      rw [read] at start
      rw [bind_of_failed read]
      cases start with
      | failed suffix place leaves => exact .failed suffix place leaves

protected theorem pure (value : α) : Reporting (pure value) :=
  fun _ _ => .done (List.suffix_refl _)

protected theorem ite {condition : Prop} [Decidable condition] {first second : Reader α}
    (holds : Reporting first) (fails : Reporting second) :
    Reporting (if condition then first else second) := by
  split
  · exact holds
  · exact fails

protected theorem peek : Reporting peek :=
  fun _ _ => .done (List.suffix_refl _)

protected theorem peekSecond : Reporting peekSecond :=
  fun _ _ => .done (List.suffix_refl _)

protected theorem advance : Reporting advance :=
  fun _ _ => .done (List.tail_suffix _)

protected theorem failWith (cause : Kind → Cause) : Reporting (failWith cause : Reader α) :=
  fun _ _ => .failed (List.suffix_refl _) rfl (List.suffix_refl _)

protected theorem tooDeep : Reporting (tooDeep : Reader α) :=
  .failWith _

protected theorem sees (kind : Kind) : Reporting (sees kind) :=
  fun _ _ => .done (List.suffix_refl _)

protected theorem accept (kind : Kind) : Reporting (accept kind) := by
  unfold accept
  exact .bind (.sees kind) fun _ => .ite (.bind .advance fun _ => .pure true) (.pure false)

protected theorem expect (kind : Kind) : Reporting (expect kind) := by
  unfold expect
  exact .bind (.sees kind) fun _ => .ite .advance (.failWith _)

protected theorem repeating {attempt : List Token → Reader α}
    (reporting : ∀ bound, Reporting (attempt bound)) : Reporting (repeating attempt) :=
  fun stop tokens => reporting _ stop tokens

protected theorem newLines : Reporting newLines := by
  intro stop tokens
  obtain ⟨lines, rest, whole, -, -, runs⟩ := newLines_runs stop tokens
  rw [runs]
  exact .done ⟨lines, whole.symm⟩

protected theorem single (rule : Rule) : Reporting (single rule) := by
  unfold single
  exact .bind .advance fun _ => .pure _

/-- The token that is no name has been taken where a name is missing. -/
protected theorem identifier : Reporting identifier := by
  intro stop tokens
  cases tokens with
  | nil => exact .failed (List.suffix_refl _) rfl (List.suffix_refl _)
  | cons token rest =>
      unfold identifier
      rw [advance_bind_cons]
      cases token.kind with
      | ident name => exact .done (List.suffix_cons token rest)
      | _ => exact .failed (List.suffix_refl _) rfl (List.suffix_cons token rest)

end Reporting

end Reader

namespace Tree

open Reader

section Expressions

variable {expression : Reader Tree}

theorem tupleItems_reporting (inner : Reporting expression) (bound : List Token) :
    Reporting (tupleItems expression bound) := by
  induction bound with
  | nil => exact .pure []
  | cons _ bound ih =>
      rw [tupleItems]
      refine .bind .newLines fun lead => .bind (.sees _) fun _ => .ite (.pure lead) ?_
      refine .bind inner fun value => .bind .newLines fun trail => .bind (.accept _) fun _ => ?_
      exact .ite (.bind ih fun _ => .pure _) (.pure _)

theorem tuple_reporting (inner : Reporting expression) : Reporting (tuple expression) := by
  unfold tuple
  refine .bind (.expect _) fun opening => ?_
  refine .bind (.repeating (tupleItems_reporting inner)) fun items => ?_
  exact .bind (.expect _) fun _ => .pure _

theorem objectKey_reporting (kind : Kind) : Reporting (objectKey kind) := by
  cases kind with
  | ident => exact .identifier
  | string => exact .single _
  | _ => exact .failWith _

theorem objectAssignment_reporting : Reporting objectAssignment := by
  unfold objectAssignment
  exact .bind .peek fun _ => .ite (.bind .advance fun _ => .pure _) (.failWith _)

theorem objectElement_reporting (inner : Reporting expression) :
    Reporting (objectElement expression) := by
  unfold objectElement
  refine .bind .peek fun first => .bind (objectKey_reporting _) fun key => ?_
  exact .bind objectAssignment_reporting fun _ => .bind inner fun _ => .pure _

theorem objectItems_reporting (inner : Reporting expression) (bound : List Token) :
    Reporting (objectItems expression bound) := by
  induction bound with
  | nil => exact .pure []
  | cons _ bound ih =>
      rw [objectItems]
      refine .bind .peek fun ahead => .ite (.pure []) ?_
      refine .bind (objectElement_reporting inner) fun element => ?_
      refine .bind (.accept _) fun comma => .bind .newLines fun lines => ?_
      exact .ite (.bind ih fun _ => .pure _) (.pure _)

theorem object_reporting (inner : Reporting expression) : Reporting (object expression) := by
  unfold object
  refine .bind (.expect _) fun opening => .bind .newLines fun lead => ?_
  refine .bind (.repeating (objectItems_reporting inner)) fun items => ?_
  exact .bind (.expect _) fun _ => .pure _

theorem callItems_reporting (inner : Reporting expression) (bound : List Token) :
    Reporting (callItems expression bound) := by
  induction bound with
  | nil => exact .pure []
  | cons _ bound ih =>
      rw [callItems]
      refine .bind inner fun value => .bind .newLines fun trail => .bind (.accept _) fun _ => ?_
      refine .ite (.bind .newLines fun lead => .bind (.sees _) fun _ => ?_) (.pure _)
      exact .ite (.pure _) (.bind ih fun _ => .pure _)

theorem callArguments_reporting (inner : Reporting expression) :
    Reporting (callArguments expression) := by
  unfold callArguments
  refine .bind .peek fun ahead => .ite (.pure []) ?_
  exact .bind (.repeating (callItems_reporting inner)) fun _ => .pure _

theorem call_reporting (inner : Reporting expression) : Reporting (call expression) := by
  unfold call
  refine .bind .peek fun first => .bind .identifier fun name => .bind (.expect _) fun _ => ?_
  refine .bind .newLines fun lead => .bind (callArguments_reporting inner) fun arguments => ?_
  exact .bind (.expect _) fun _ => .pure _

theorem grouped_reporting (inner : Reporting expression) : Reporting (grouped expression) := by
  unfold grouped
  refine .bind .advance fun _ => .bind .newLines fun lead => .bind inner fun value => ?_
  exact .bind .newLines fun trail => .bind (.expect _) fun _ => .pure _

theorem alone_reporting {reader : Reader Tree} (single : Reporting reader) :
    Reporting (alone reader) := by
  unfold alone
  exact .bind single fun _ => .pure _

theorem named_reporting (inner : Reporting expression) : Reporting (named expression) := by
  unfold named
  refine .bind .peekSecond fun _ => ?_
  exact .ite (alone_reporting (call_reporting inner)) (alone_reporting .identifier)

theorem primaryItems_reporting (inner : Reporting expression) (kind : Kind) :
    Reporting (primaryItems expression kind) := by
  cases kind with
  | int | float | string => exact alone_reporting (.single _)
  | leftBracket => exact alone_reporting (tuple_reporting inner)
  | leftBrace => exact alone_reporting (object_reporting inner)
  | leftParen => exact grouped_reporting inner
  | ident => exact named_reporting inner
  | _ => exact .failWith _

theorem primary_reporting (inner : Reporting expression) : Reporting (primary expression) := by
  unfold primary
  refine .bind .peek fun first => ?_
  exact .bind (primaryItems_reporting inner _) fun children => .pure _

theorem member_reporting (line : Nat) (kind : Kind) : Reporting (member line kind) := by
  cases kind with
  | star => exact .bind .advance fun _ => .pure _
  | int => exact .bind (.single _) fun _ => .pure _
  | _ => exact .bind .identifier fun _ => .pure _

theorem subscript_reporting (line : Nat) (kind : Kind) : Reporting (subscript line kind) := by
  cases kind with
  | star => exact .bind .advance fun _ => .pure _
  | int | string => exact .bind (.single _) fun _ => .pure _
  | _ => exact .failWith _

theorem projection_reporting (kind : Kind) : Reporting (projection kind) := by
  refine .ite ?_ ?_
  · unfold dotProjection
    exact .bind .advance fun _ => .bind .peek fun _ => member_reporting _ _
  · unfold bracketProjection
    refine .bind .advance fun _ => .bind .peek fun _ => .bind (subscript_reporting _ _) fun _ => ?_
    exact .bind (.expect _) fun _ => .pure _

theorem projections_reporting (line : Nat) (bound : List Token) (height : Nat) (start : Tree) :
    Reporting (projections line bound height start) := by
  induction bound generalizing height start with
  | nil => exact .pure start
  | cons _ bound ih =>
      rw [projections]
      refine .bind .peek fun ahead => .ite (.ite (.failWith _) ?_) (.pure start)
      exact .bind (projection_reporting _) fun step => ih _ _

theorem term_reporting (inner : Reporting expression) : Reporting (term expression) := by
  unfold term
  refine .bind .peek fun first => .bind (primary_reporting inner) fun start => ?_
  exact .repeating fun bound => projections_reporting _ bound _ start

theorem operand_reporting (inner : Reporting expression) : Reporting (operand expression) := by
  unfold operand
  refine .bind .peek fun first => .ite ?_ (term_reporting inner)
  exact .bind .advance fun sign => .bind (term_reporting inner) fun _ => .pure _

theorem operation_reporting (inner : Reporting expression) : Reporting (operation expression) := by
  unfold operation
  refine .bind .peek fun first => .bind (operand_reporting inner) fun left => ?_
  refine .bind .peek fun ahead => .ite ?_ (.pure left)
  refine .bind .advance fun sign => .bind .newLines fun lines => ?_
  exact .bind inner fun right => .pure _

end Expressions

theorem expression_reporting (depth : Nat) : Reporting (expression depth) := by
  induction depth with
  | zero => exact .tooDeep
  | succ depth ih => exact operation_reporting ih

section Statements

variable {expression block : Reader Tree}

theorem clause_reporting (value : Reporting expression) (nested : Reporting block) :
    Reporting (clause expression block) := by
  unfold clause
  refine .bind .peekSecond fun _ => .ite ?_ nested
  unfold attr
  refine .bind .peek fun first => .bind .identifier fun key => .bind (.expect _) fun _ => ?_
  exact .bind value fun _ => .pure _

theorem item_reporting (value : Reporting expression) (nested : Reporting block)
    (closing : Option Kind) (kind : Kind) : Reporting (item expression block closing kind) := by
  refine .ite .newLines (alone_reporting ?_)
  unfold statement
  refine .bind (clause_reporting value nested) fun tree => .bind .peek fun ahead => ?_
  exact .ite (.pure tree) (.failWith _)

theorem blockItems_reporting (value : Reporting expression) (nested : Reporting block)
    (bound : List Token) : Reporting (blockItems expression block bound) := by
  induction bound with
  | nil => exact .pure []
  | cons _ bound ih =>
      rw [blockItems]
      refine .bind .peek fun ahead => .ite (.pure []) ?_
      exact .bind (item_reporting value nested _ _) fun _ => .bind ih fun _ => .pure _

theorem labelledBlock_reporting (value : Reporting expression) (nested : Reporting block) :
    Reporting (labelledBlock expression block) := by
  have titled : Reporting labels := fun _ _ => .done (List.dropWhile_suffix _)
  unfold labelledBlock
  refine .bind .peek fun first => .bind .identifier fun name => .bind titled fun labels => ?_
  refine .bind (.expect _) fun _ => .bind .peek fun inside => ?_
  refine .bind (.repeating (blockItems_reporting value nested)) fun items => ?_
  exact .bind (.expect _) fun _ => .pure _

end Statements

theorem block_reporting (depth : Nat) : Reporting (block depth) := by
  induction depth with
  | zero => exact .tooDeep
  | succ depth ih => exact labelledBlock_reporting (expression_reporting depth) ih

/-! ### Faults of a document -/

/-- What is skipped ends in front of a newline or of the end. -/
theorem recover_ahead (stop : Position) (depth : Nat) (tokens : List Token) :
    (ahead stop (recover depth tokens)).kind = .newline ∨
      (ahead stop (recover depth tokens)).kind = .eof := by
  induction tokens generalizing depth with
  | nil => exact .inr rfl
  | cons token tokens ih =>
      unfold recover
      split
      next ends => exact .inr ends
      next feeds =>
        split
        · exact .inl feeds
        · exact ih _
      all_goals exact ih _

section Items

variable {stop : Position} {tokens left : List Token} {fault : Fault} {faults : List Fault}

/-- What the items of a document may report. Each is passed over, or fails and has some of what it
leaves skipped; newlines never fail, and behind the end there are no items. -/
inductive Finds (stop : Position) : List Token → List Fault → Prop
  | ends {tokens : List Token} : Finds stop tokens []
  | passes {tokens left : List Token} {faults : List Fault}
      (inside : (ahead stop tokens).kind ≠ .eof) (suffix : left <:+ tokens)
      (follow : Finds stop left faults) : Finds stop tokens faults
  | fails {tokens seen left : List Token} {fault : Fault} {faults : List Fault}
      (inside : (ahead stop tokens).kind ≠ .eof) (item : (ahead stop tokens).kind ≠ .newline)
      (suffix : seen <:+ tokens) (place : fault.place = (ahead stop seen).place)
      (leaves : left <:+ seen) (follow : Finds stop (recover 0 left) faults) :
      Finds stop tokens (fault :: faults)

theorem items_finds (bound tokens : List Token) :
    Finds stop tokens (items stop bound tokens).faults := by
  induction bound generalizing tokens with
  | nil => exact .ends
  | cons _ bound ih =>
      cases tokens with
      | nil => exact .ends
      | cons token rest =>
          by_cases ends : token.kind = .eof
          · rw [items, if_pos ends]
            exact .ends
          have reports := item_reporting (expression_reporting maxNesting)
            (block_reporting maxNesting) none token.kind stop (token :: rest)
          rw [items, if_neg ends]
          cases read : item (expression maxNesting) (block maxNesting) none token.kind stop
              (token :: rest) with
          | done trees left =>
              rw [read] at reports
              cases reports with
              | done suffix => exact .passes ends suffix (ih left)
          | failed fault left =>
              have item : token.kind ≠ .newline := by
                intro feeds
                obtain ⟨_, _, -, -, -, runs⟩ := newLines_runs stop (token :: rest)
                rw [Tree.item, if_pos feeds, runs] at read
                cases read
              rw [read] at reports
              cases reports with
              | failed suffix place leaves => exact .fails ends item suffix place leaves (ih _)

/-- The fault is at one of the tokens, or where they stop. -/
def Located (stop : Position) (tokens : List Token) (fault : Fault) : Prop :=
  ∃ left, left <:+ tokens ∧ fault.place = (ahead stop left).place

theorem Located.of_suffix (located : Located stop left fault) (suffix : left <:+ tokens) :
    Located stop tokens fault := by
  obtain ⟨inner, within, place⟩ := located
  exact ⟨inner, within.trans suffix, place⟩

namespace Finds

theorem located (finds : Finds stop tokens faults) :
    ∀ fault ∈ faults, Located stop tokens fault := by
  induction finds with
  | ends => simp
  | passes _ suffix _ ih => exact fun fault member => (ih fault member).of_suffix suffix
  | @fails _ _ left _ _ _ _ suffix place leaves _ ih =>
      refine List.forall_mem_cons.mpr ⟨⟨_, suffix, place⟩, fun fault member => ?_⟩
      exact (ih fault member).of_suffix ((recover_suffix 0 left).trans (leaves.trans suffix))

theorem eq_nil (finds : Finds stop tokens faults) (ends : (ahead stop tokens).kind = .eof) :
    faults = [] := by
  cases finds with
  | ends => rfl
  | passes inside | fails inside => exact absurd ends inside

/-- Nothing is reported at a newline in front. -/
theorem located_behind {feed : Token} {rest : List Token} (finds : Finds stop (feed :: rest) faults)
    (feeds : feed.kind = .newline) : ∀ fault ∈ faults, Located stop rest fault := by
  generalize front : feed :: rest = tokens at finds
  induction finds with
  | ends => simp
  | passes inside suffix follow ih =>
      subst front
      rcases List.suffix_cons_iff.mp suffix with same | behind
      · exact ih same.symm
      · exact fun fault member => (follow.located fault member).of_suffix behind
  | fails inside item =>
      subst front
      exact absurd feeds item

end Finds

/-- Every token precedes those behind it and the end. -/
def Ordered (stop : Position) (tokens : List Token) : Prop :=
  (tokens ++ [Token.mk .eof stop]).Pairwise Token.Precedes

namespace Ordered

theorem of_suffix (ordered : Ordered stop tokens) (suffix : left <:+ tokens) : Ordered stop left :=
  List.Pairwise.sublist (suffix.sublist.append_right _) ordered

/-- What is located behind a newline is below it. -/
theorem line_lt {feed : Token} (ordered : Ordered stop (feed :: tokens))
    (feeds : feed.kind = .newline) (located : Located stop tokens fault) :
    feed.place.line < fault.place.line := by
  obtain ⟨left, suffix, place⟩ := located
  have front : ahead stop left ∈ left ++ [Token.mk .eof stop] := by
    cases left with
    | nil | cons => exact List.mem_cons_self
  have member := (suffix.sublist.append_right _).subset front
  rw [place]
  exact ((List.pairwise_cons.mp ordered).1 _ member).2 feeds

theorem ahead_line_le (ordered : Ordered stop tokens) :
    ∀ token ∈ tokens, (ahead stop tokens).place.line ≤ token.place.line := by
  cases tokens with
  | nil => simp
  | cons token rest =>
      refine List.forall_mem_cons.mpr ⟨Nat.le_refl _, fun other member => ?_⟩
      exact ((List.pairwise_cons.mp ordered).1 other (List.mem_append_left _ member)).1

/-- Reading goes on at a newline that is on the line of the fault or below, and what is reported
next is behind that newline. -/
theorem recovered (ordered : Ordered stop tokens) (place : fault.place = (ahead stop tokens).place)
    (leaves : left <:+ tokens) (follow : Finds stop (recover 0 left) faults) :
    ∀ other ∈ faults, fault.place.line < other.place.line := by
  have suffix : recover 0 left <:+ tokens := (recover_suffix 0 left).trans leaves
  rcases recover_ahead stop 0 left with feeds | ends
  · obtain ⟨feed, rest, front, newline⟩ := eq_cons_of_kind feeds (by decide)
    rw [front] at suffix follow
    intro other member
    have onward := ordered.ahead_line_le feed (suffix.subset List.mem_cons_self)
    have behind := follow.located_behind newline other member
    have below := (ordered.of_suffix suffix).line_lt newline behind
    rw [place]
    exact Nat.lt_of_le_of_lt onward below
  · rw [follow.eq_nil ends]
    simp

end Ordered

/-- By induction on the items, with the tokens that are left. -/
theorem Finds.descend (finds : Finds stop tokens faults) (ordered : Ordered stop tokens) :
    faults.Pairwise fun fault other => fault.place.line < other.place.line := by
  induction finds with
  | ends => exact .nil
  | passes _ suffix _ ih => exact ih (ordered.of_suffix suffix)
  | @fails _ _ left _ _ _ _ suffix place leaves follow ih =>
      have skipped := (recover_suffix 0 left).trans (leaves.trans suffix)
      refine .cons ?_ (ih (ordered.of_suffix skipped))
      exact (ordered.of_suffix suffix).recovered place leaves follow

/-- Tokens whose lines go down have faults whose lines go down. -/
theorem ofTokens_descend {last : Token} (ordered : (tokens ++ [last]).Pairwise Token.Precedes)
    (ends : last.kind = .eof) (refused : ofTokens (tokens ++ [last]) = .error faults) :
    faults ≠ [] ∧ faults.Pairwise fun fault other => fault.place.line < other.place.line := by
  obtain ⟨kind, stop⟩ := last
  subst ends
  unfold ofTokens at refused
  rw [splitEnd_append rfl] at refused
  dsimp only at refused
  split at refused
  next => cases refused
  next faulty =>
    obtain rfl := Except.error.inj refused
    refine ⟨fun none => faulty (List.isEmpty_iff.mpr none), ?_⟩
    exact (items_finds tokens tokens).descend ordered

end Items

end Tree

namespace Document

theorem parse_eq_faults {text : String} {faults : List Fault}
    (failed : parse text = .error (.faults faults)) :
    Token.ofText text = .error faults ∨
      ∃ tokens, Token.ofText text = .ok tokens ∧ Tree.ofTokens tokens = .error faults := by
  rw [parse_eq_ofTokens] at failed
  cases scanned : Token.ofText text with
  | error others =>
      rw [scanned] at failed
      cases failed
      exact .inl rfl
  | ok tokens =>
      rw [scanned] at failed
      change ofTokens tokens = _ at failed
      cases read : Tree.ofTokens tokens with
      | error others =>
          rw [ofTokens_of_faults read] at failed
          cases failed
          exact .inr ⟨tokens, rfl, read⟩
      | ok tree =>
          unfold ofTokens at failed
          rw [read] at failed
          change (ofTree tree).mapError _ = _ at failed
          cases made : ofTree tree with
          | ok document =>
              rw [made] at failed
              cases failed
          | error malformed =>
              rw [made] at failed
              cases failed

/-- A text that is no document has faults, and they are reported in the order in which they stand in
the text, no two of them at one place. If the text has tokens, so that it is their order that is
wrong, then no two faults are on one line. -/
theorem parse_faults_ordered {text : String} {faults : List Fault}
    (failed : parse text = .error (.faults faults)) :
    faults ≠ [] ∧ faults.Pairwise (fun fault other => fault.place < other.place) ∧
      ∀ tokens, Token.ofText text = .ok tokens →
        faults.Pairwise fun fault other => fault.place.line < other.place.line := by
  rcases parse_eq_faults failed with scanned | ⟨tokens, scanned, refused⟩
  · obtain ⟨nonempty, ordered⟩ := Token.ofText_faults_ordered scanned
    refine ⟨nonempty, ordered, fun tokens same => ?_⟩
    rw [scanned] at same
    cases same
  · obtain ⟨inside, stop, rfl, precedes⟩ := Token.ofText_precedes scanned
    obtain ⟨nonempty, lines⟩ := Tree.ofTokens_descend precedes rfl refused
    exact ⟨nonempty, lines.imp .inl, fun _ _ => lines⟩

/-- A value is missing on the first line, and on the third a bracket is in its place. -/
theorem parse_faults_ordered_lines :
    let text := "a =\nb = 1\nc = ]\n"
    let faults : List Fault := [⟨⟨1, 4⟩, .unexpected .expression .newline⟩,
      ⟨⟨3, 5⟩, .unexpected .expression .rightBracket⟩]
    parse text = .error (.faults faults) ∧ faults ≠ [] ∧
      faults.Pairwise (fun fault other => fault.place < other.place) ∧
      faults.Pairwise (fun fault other => fault.place.line < other.place.line) := by
  intro text faults
  have scanned : Token.ofText text = .ok [⟨.ident "a", 1, 1⟩, ⟨.assign, 1, 3⟩, ⟨.newline, 1, 4⟩,
      ⟨.ident "b", 2, 1⟩, ⟨.assign, 2, 3⟩, ⟨.int 1, 2, 5⟩, ⟨.newline, 2, 6⟩, ⟨.ident "c", 3, 1⟩,
      ⟨.assign, 3, 3⟩, ⟨.rightBracket, 3, 5⟩, ⟨.newline, 3, 6⟩, ⟨.eof, 4, 1⟩] := by
    decide +kernel
  have failed : parse text = .error (.faults faults) := by
    rw [parse_of_run (Token.ofText_eq_ok_iff.mp scanned)]
    exact ofTokens_of_faults rfl
  obtain ⟨nonempty, ordered, lines⟩ := parse_faults_ordered failed
  exact ⟨failed, nonempty, ordered, lines _ scanned⟩

end Document

end ConfigLang
