import ConfigLang.Proofs.Bounds
import ConfigLang.Proofs.Cursor
/-!
Parsers with a cursor that do what readers do. A parser stands in front of the tokens that a reader
is given, ends as the reader does and in front of what it leaves, and logs only what is sound. That
passes through whatever parsers are put together of, and through the clocks of loops, which last as
long as there are tokens.
-/

set_option autoImplicit false

namespace ConfigLang

/-- What holds of an event in a run over so many tokens. The cursor is on one of them, procedures
end as deep as they began, and those that succeed take a token, except for the one that reads
newlines. -/
def Event.Sound (size : Nat) : Event → Prop
  | .moved position => position < size
  | .returned procedure entry exit succeeded =>
    entry.position < size ∧ exit.position < size ∧ exit.depth = entry.depth ∧
      (succeeded = true → procedure ≠ .newLines → entry.position < exit.position)

namespace Parser

/-- The tokens before the end token of a list, the place of the end, and how deep the parser is
nested. -/
structure Scene where
  before : List Token
  stop : Position
  depth : Nat

namespace Scene

/-- The end token. -/
def last (scene : Scene) : Token :=
  ⟨.eof, scene.stop⟩

def tokens (scene : Scene) : List Token :=
  scene.before ++ [scene.last]

def deeper (scene : Scene) : Scene :=
  { scene with depth := scene.depth + 1 }

/-- The cursor stands in front of these tokens, or on the end token where there are none. It came
there one step at a time, and all that was logged is sound. -/
structure Stands (scene : Scene) (rest : List Token) (state : State) : Prop where
  inside : state.position ≤ scene.before.length
  ahead : scene.before.drop state.position = rest
  depth : state.depth = scene.depth
  path : state.path.reverse = List.range' 1 state.position
  sound : ∀ event ∈ state.events, event.Sound scene.tokens.length

/-- A parser ends as a reader does, in front of the tokens that the reader leaves. -/
inductive Mirrors (scene : Scene) {α : Type} : Ending α → Reply α → Prop
  | done {value : α} {state : State} {rest : List Token} (stands : scene.Stands rest state) :
      Mirrors scene (.done value state) (.done value rest)
  | failed {fault : Fault} {state : State} {rest : List Token} (stands : scene.Stands rest state) :
      Mirrors scene (.failed fault state) (.failed fault rest)

/-- Wherever a parser stands in front of these tokens, it does what the reader does. -/
def Tracks (scene : Scene) {α : Type} (parser : Parser α) (reader : Reader α)
    (rest : List Token) : Prop :=
  ∀ ⦃state⦄, scene.Stands rest state →
    scene.Mirrors (parser scene.tokens state) (reader scene.stop rest)

variable {scene : Scene} {rest : List Token} {state : State}

@[simp] theorem length_tokens (scene : Scene) : scene.tokens.length = scene.before.length + 1 := by
  simp [tokens]

namespace Stands

theorem length (stands : scene.Stands rest state) :
    state.position + rest.length = scene.before.length := by
  have inside := stands.inside
  rw [← stands.ahead, List.length_drop]
  omega

theorem length_le (stands : scene.Stands rest state) : rest.length ≤ scene.before.length := by
  have whole := stands.length
  omega

theorem lt_size (stands : scene.Stands rest state) : state.position < scene.tokens.length := by
  rw [length_tokens]
  exact Nat.lt_succ_of_le stands.inside

/-- Behind the tokens that are left there is the end token. -/
theorem drop_tokens (stands : scene.Stands rest state) :
    scene.tokens.drop state.position = rest ++ [scene.last] := by
  rw [tokens, List.drop_append_of_le_length stands.inside, stands.ahead]

theorem getElem?_position (stands : scene.Stands rest state) :
    scene.tokens[state.position]? = some (Reader.ahead scene.stop rest) := by
  rw [← List.head?_drop, stands.drop_tokens]
  cases rest <;> rfl

theorem peek (stands : scene.Stands rest state) :
    peek scene.tokens state = .done (Reader.ahead scene.stop rest) state := by
  unfold Parser.peek
  rw [stands.getElem?_position]

theorem getElem?_next (stands : scene.Stands rest state) :
    scene.tokens[state.position + 1]? = (rest ++ [scene.last]).tail.head? := by
  rw [← stands.drop_tokens, List.tail_drop, List.head?_drop]

/-- Logging what is sound leaves the cursor where it is. -/
theorem log {procedure : Procedure} {entry exit : Cursor} {succeeded : Bool}
    (stands : scene.Stands rest state)
    (sound : (Event.returned procedure entry exit succeeded).Sound scene.tokens.length) :
    scene.Stands rest (state.log (.returned procedure entry exit succeeded)) where
  inside := stands.inside
  ahead := stands.ahead
  depth := stands.depth
  path := stands.path
  sound := List.forall_mem_cons.mpr ⟨sound, stands.sound⟩

theorem moveTo (stands : scene.Stands rest state)
    (inside : state.position + 1 ≤ scene.before.length) :
    scene.Stands rest.tail (state.moveTo (state.position + 1)) where
  inside := inside
  ahead := by
    rw [← stands.ahead, List.tail_drop]
    rfl
  depth := stands.depth
  path := by
    change ((state.position + 1) :: state.path).reverse = List.range' 1 (state.position + 1)
    rw [List.reverse_cons, stands.path, List.range'_1_concat, Nat.add_comm]
  sound := by
    refine List.forall_mem_cons.mpr ⟨?_, stands.sound⟩
    rw [Event.Sound, length_tokens]
    exact Nat.lt_succ_of_le inside

theorem deeper (stands : scene.Stands rest state) : scene.deeper.Stands rest state.deeper where
  inside := stands.inside
  ahead := stands.ahead
  depth := congrArg (· + 1) stands.depth
  path := stands.path
  sound := stands.sound

theorem shallower (stands : scene.deeper.Stands rest state) :
    scene.Stands rest state.shallower where
  inside := stands.inside
  ahead := stands.ahead
  depth := congrArg (· - 1) stands.depth
  path := stands.path
  sound := stands.sound

end Stands

/-! ### How parsers are put together -/

namespace Tracks

variable {α β : Type} {parser : Parser α} {reader : Reader α}

protected theorem bind {first : Parser α} {read : Reader α} {next : α → Parser β}
    {go : α → Reader β} (start : Tracks scene first read rest)
    (behind : ∀ value left, read scene.stop rest = .done value left →
      Tracks scene (next value) (go value) left) :
    Tracks scene (first >>= next) (read >>= go) rest := by
  intro state stands
  have reached := start stands
  change Mirrors scene (Parser.bind first next scene.tokens state) _
  unfold Parser.bind
  cases replies : read scene.stop rest with
  | done value left =>
      rw [replies] at reached
      rw [Reader.bind_of_done replies]
      generalize first scene.tokens state = ending at reached
      cases reached with
      | done stands => exact behind value left replies stands
  | failed fault left =>
      rw [replies] at reached
      rw [Reader.bind_of_failed replies]
      generalize first scene.tokens state = ending at reached
      cases reached with
      | failed stands => exact .failed stands

protected theorem pure (value : α) : Tracks scene (pure value) (pure value) rest :=
  fun _ stands => .done stands

protected theorem ite {condition : Prop} [Decidable condition] {first second : Parser α}
    {read other : Reader α} (holds : condition → Tracks scene first read rest)
    (fails : ¬condition → Tracks scene second other rest) :
    Tracks scene (if condition then first else second) (if condition then read else other)
      rest := by
  split
  next yes => exact holds yes
  next no => exact fails no

/-- A reader that replies the same at these tokens can stand in for another. -/
theorem congr {other : Reader α} (tracks : Tracks scene parser other rest)
    (same : reader scene.stop rest = other scene.stop rest) : Tracks scene parser reader rest := by
  intro state stands
  rw [same]
  exact tracks stands

/-- There are no more tokens ahead than in the whole list. -/
theorem of_length_le
    (tracks : rest.length ≤ scene.before.length → Tracks scene parser reader rest) :
    Tracks scene parser reader rest :=
  fun _ stands => tracks stands.length_le stands

protected theorem peek : Tracks scene peek Reader.peek rest := by
  intro state stands
  rw [stands.peek]
  exact .done stands

/-- What follows on the token ahead knows that it is ahead. -/
theorem peek_bind {next : Token → Parser β} {go : Token → Reader β}
    (behind : Tracks scene (next (Reader.ahead scene.stop rest))
      (go (Reader.ahead scene.stop rest)) rest) :
    Tracks scene (Parser.peek >>= next) (Reader.peek >>= go) rest :=
  .bind .peek fun _ _ read => by
    cases read
    exact behind

/-- A look at the token ahead that a reader does without. -/
theorem peek_first {next : Token → Parser β} {read : Reader β}
    (behind : Tracks scene (next (Reader.ahead scene.stop rest)) read rest) :
    Tracks scene (Parser.peek >>= next) read rest := by
  have looked : Tracks scene (Parser.peek >>= next) (Reader.peek >>= fun _ => read) rest :=
    .peek_bind behind
  exact looked.congr rfl

/-- The cursor moves on while there are tokens before the end, and sticks there. -/
protected theorem advance : Tracks scene advance Reader.advance rest := by
  refine .peek_first ?_
  intro state stands
  change Mirrors scene (Ending.done _ _) _
  have whole := stands.length
  by_cases more : state.position + 1 < scene.tokens.length
  · rw [if_pos more]
    rw [length_tokens] at more
    exact .done (stands.moveTo (Nat.le_of_lt_succ more))
  · rw [if_neg more]
    rw [length_tokens] at more
    obtain rfl : rest = [] := List.length_eq_zero_iff.mp (by omega)
    exact .done stands

/-- The token behind the one ahead is never taken for the end token. -/
theorem nextIs_bind {kind : Kind} (inner : kind ≠ .eof) {yes no : Parser α} {read other : Reader α}
    (holds : Tracks scene yes read rest) (fails : Tracks scene no other rest) :
    Tracks scene (do if ← nextIs kind then yes else no)
      (do if (← Reader.peekSecond) = some kind then read else other) rest := by
  intro state stands
  have same : scene.tokens[state.position + 1]?.any (·.kind = kind) =
      decide (rest.tail.head?.map Token.kind = some kind) := by
    rw [stands.getElem?_next]
    rcases rest with _ | ⟨first, _ | ⟨second, others⟩⟩
    · rfl
    · simp [last, inner.symm]
    · simp
  change Mirrors scene
    ((if scene.tokens[state.position + 1]?.any (·.kind = kind) then yes else no) _ state)
    ((if rest.tail.head?.map Token.kind = some kind then read else other) _ rest)
  simp only [same, decide_eq_true_eq]
  exact Tracks.ite (fun _ => holds) (fun _ => fails) stands

protected theorem failAt (place : Position) (cause : Cause) :
    Tracks scene (failAt place cause : Parser α) (Reader.failAt place cause) rest :=
  fun _ stands => .failed stands

protected theorem failWith (cause : Kind → Cause) :
    Tracks scene (failWith cause : Parser α) (Reader.failWith cause) rest :=
  .peek_bind (.failAt _ _)

protected theorem tooDeep : Tracks scene (tooDeep : Parser α) Reader.tooDeep rest :=
  .failWith _

/-- What follows on a test of the token ahead knows how it went. -/
theorem sees_bind {kind : Kind} {next : Bool → Parser β} {go : Bool → Reader β}
    (behind : Tracks scene (next ((Reader.ahead scene.stop rest).kind = kind))
      (go ((Reader.ahead scene.stop rest).kind = kind)) rest) :
    Tracks scene (Parser.sees kind >>= next) (Reader.sees kind >>= go) rest := by
  refine .bind (.peek_bind (.pure _)) fun _ _ read => ?_
  cases read
  exact behind

protected theorem accept (kind : Kind) :
    Tracks scene (accept kind) (Reader.accept kind) rest := by
  unfold Parser.accept Reader.accept
  exact .sees_bind (.ite (fun _ => .bind .advance fun _ _ _ => .pure _) fun _ => .pure _)

protected theorem expect (kind : Kind) :
    Tracks scene (expect kind) (Reader.expect kind) rest := by
  unfold Parser.expect Reader.expect
  exact .sees_bind (.ite (fun _ => .advance) fun _ => .failWith _)

protected theorem single (rule : Rule) : Tracks scene (single rule) (Reader.single rule) rest := by
  unfold Parser.single Reader.single
  exact .bind .advance fun _ _ _ => .pure _

/-- A procedure that takes a token where it succeeds leaves sound events. -/
theorem recorded {procedure : Procedure} (tracks : Tracks scene parser reader rest)
    (takes : procedure ≠ .newLines → ∀ {value left},
      reader scene.stop rest = .done value left → left.length < rest.length) :
    Tracks scene (recorded procedure parser) reader rest := by
  intro state stands
  have reached := tracks stands
  have entered := stands.length
  unfold Parser.recorded
  cases replies : reader scene.stop rest with
  | done value left =>
      rw [replies] at reached
      generalize parser scene.tokens state = ending at reached
      cases reached with
      | done exits =>
          refine .done (exits.log ⟨stands.lt_size, exits.lt_size, ?_, fun _ other => ?_⟩)
          · exact exits.depth.trans stands.depth.symm
          · have shorter := takes other replies
            have exited := exits.length
            change state.position < _
            omega
  | failed fault left =>
      rw [replies] at reached
      generalize parser scene.tokens state = ending at reached
      cases reached with
      | failed exits =>
          refine .failed (exits.log ⟨stands.lt_size, exits.lt_size, ?_, fun no => ?_⟩)
          · exact exits.depth.trans stands.depth.symm
          · exact absurd no Bool.false_ne_true

/-- The nesting is what it was, however the parser inside ends. -/
theorem nested (room : scene.depth < Tree.maxNesting)
    (tracks : Tracks scene.deeper parser reader rest) :
    Tracks scene (nested parser) reader rest := by
  intro state stands
  have reached : scene.deeper.Mirrors (parser scene.tokens state.deeper)
      (reader scene.stop rest) := tracks stands.deeper
  unfold Parser.nested
  rw [if_neg (by rw [stands.depth]; exact Nat.not_le_of_lt room)]
  generalize parser scene.tokens state.deeper = ending at reached
  generalize reader scene.stop rest = reply at reached
  cases reached with
  | done exits => exact .done exits.shallower
  | failed exits => exact .failed exits.shallower

theorem nested_tooDeep (full : Tree.maxNesting ≤ scene.depth) :
    Tracks scene (Parser.nested parser) Reader.tooDeep rest := by
  intro state stands
  unfold Parser.nested
  rw [if_pos (by rw [stands.depth]; exact full)]
  exact Tracks.tooDeep stands

/-- A loop in which each round takes a token does not come to the end of the list that bounds it, nor
does it spend a clock that is longer than the tokens ahead. -/
theorem loop_bound {parser : Nat → Parser α} {attempt : List Token → Reader α}
    (round : ∀ clock first bound rest, rest.length < clock →
      (∀ left : List Token, left.length < rest.length →
        Tracks scene (parser clock) (attempt bound) left) →
      Tracks scene (parser (clock + 1)) (attempt (first :: bound)) rest)
    {clock : Nat} {bound : List Token} (enough : rest.length + 1 < clock)
    (longer : rest.length < bound.length) : Tracks scene (parser clock) (attempt bound) rest := by
  induction clock generalizing rest bound with
  | zero => exact absurd enough (Nat.not_lt_zero _)
  | succ clock ih =>
      obtain ⟨first, bound, rfl⟩ := List.exists_cons_of_length_pos (Nat.zero_lt_of_lt longer)
      rw [List.length_cons] at longer
      exact round clock first bound rest (by omega) fun left shorter => ih (by omega) (by omega)

/-- A loop that has time for all of the tokens. -/
protected theorem loop {parser : Nat → Parser α} {attempt : List Token → Reader α} {clock : Nat}
    (enough : scene.before.length + 1 < clock)
    (round : ∀ clock first bound rest, rest.length < clock →
      (∀ left : List Token, left.length < rest.length →
        Tracks scene (parser clock) (attempt bound) left) →
      Tracks scene (parser (clock + 1)) (attempt (first :: bound)) rest) :
    Tracks scene (parser clock) (Reader.repeating attempt) rest :=
  .of_length_le fun atMost =>
    .congr (loop_bound round (Nat.lt_of_le_of_lt (Nat.succ_le_succ atMost) enough)
      (Nat.lt_succ_self _)) rfl

/-- A loop that carries something along. -/
theorem repeating {attempt : List Token → Reader α} {clock : Nat}
    (enough : scene.before.length + 1 < clock)
    (tracks : ∀ bound, rest.length + 1 < clock → rest.length < bound.length →
      Tracks scene parser (attempt bound) rest) :
    Tracks scene parser (Reader.repeating attempt) rest :=
  .of_length_le fun atMost => .congr (tracks _ (by omega) (Nat.lt_succ_self _)) rfl

end Tracks

/-! ### Leaves -/

section Leaves

variable {clock : Nat}

theorem identifier_tracks : Tracks scene identifier Reader.identifier rest := by
  refine .recorded ?_ fun _ _ _ read => ?_
  · unfold Reader.identifier
    refine .bind .advance fun token _ _ => ?_
    cases token.kind with
    | ident => exact .pure _
    | _ => exact .failAt _ _
  · obtain ⟨_, _, rfl, _⟩ := Reader.identifier_done read
    exact Nat.lt_succ_self _

/-- A literal is read only where one is ahead. -/
theorem recorded_single (procedure : Procedure) (rule : Rule) (token : Token) :
    Tracks scene (recorded procedure (single rule)) (Reader.single rule) (token :: rest) :=
  .recorded (.single rule) fun _ _ _ read => by
    cases read
    exact Nat.lt_succ_self _

/-- The line feeds ahead, one for one. -/
def feeds : Reader (List Token) :=
  fun _ tokens =>
    .done (tokens.takeWhile (·.kind = .newline)) (tokens.dropWhile (·.kind = .newline))

theorem feeds_eq (stop : Position) (tokens : List Token) :
    feeds stop tokens =
      (do
        if ← Reader.sees .newline then
          let first ← Reader.advance
          let rest ← feeds
          return first :: rest
        else return [] : Reader (List Token)) stop tokens := by
  rw [Reader.sees_bind]
  cases tokens with
  | nil => rfl
  | cons token others =>
      by_cases newline : token.kind = .newline
      · rw [Reader.ahead_cons, decide_eq_true newline, if_pos rfl, Reader.advance_bind_cons, feeds,
          List.takeWhile_cons_of_pos (by simp [newline]),
          List.dropWhile_cons_of_pos (by simp [newline])]
        rfl
      · rw [Reader.ahead_cons, decide_eq_false newline, if_neg Bool.false_ne_true, feeds,
          List.takeWhile_cons_of_neg (by simp [newline]),
          List.dropWhile_cons_of_neg (by simp [newline])]
        rfl

theorem lineFeeds_tracks (enough : rest.length < clock) :
    Tracks scene (lineFeeds clock) feeds rest := by
  induction clock generalizing rest with
  | zero => exact absurd enough (Nat.not_lt_zero _)
  | succ clock ih =>
      refine .congr (.sees_bind (.ite (fun sees => ?_) fun _ => .pure [])) (feeds_eq _ _)
      obtain ⟨token, others, rfl, _⟩ := Reader.eq_cons_of_kind (of_decide_eq_true sees) (by decide)
      refine .bind .advance fun first left read => ?_
      cases read
      exact .bind (ih (Nat.lt_of_succ_lt_succ enough)) fun _ _ _ => .pure _

theorem newLines_eq (stop : Position) (tokens : List Token) :
    Reader.newLines stop tokens =
      (do
        let first ← Reader.peek
        let lines ← feeds
        if lines.isEmpty then return []
        else return [.node .newLines first.place.line (lines.map .leaf)] :
          Reader (List Tree)) stop tokens := by
  have read : feeds stop tokens = .done (tokens.takeWhile (·.kind = .newline))
      (tokens.dropWhile (·.kind = .newline)) := rfl
  rw [Reader.peek_bind, Reader.bind_of_done read]
  unfold Reader.newLines
  cases tokens with
  | nil => rfl
  | cons token others =>
      by_cases newline : token.kind = .newline
      · rw [List.takeWhile_cons_of_pos (by simp [newline])]
        rfl
      · rw [List.takeWhile_cons_of_neg (by simp [newline]),
          List.dropWhile_cons_of_neg (by simp [newline])]
        rfl

theorem newLines_tracks (enough : rest.length < clock) :
    Tracks scene (newLines clock) Reader.newLines rest := by
  refine .recorded (.congr (.peek_bind ?_) (newLines_eq _ _)) fun other => absurd rfl other
  exact .bind (lineFeeds_tracks enough) fun _ _ _ => .ite (fun _ => .pure _) fun _ => .pure _

/-- Where the clock is longer than the whole list it is long enough for the newlines ahead. -/
theorem newLines_within (enough : scene.before.length + 1 < clock) :
    Tracks scene (newLines clock) Reader.newLines rest :=
  .of_length_le fun atMost => newLines_tracks (by omega)

end Leaves

end Scene

end Parser

end ConfigLang
