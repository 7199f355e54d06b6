import ConfigLang.Proofs.LineFaults
/-!
Places go up through a text. The faults of its characters are reported from the front to the end, no
two of them at one place; its tokens go down line by line, and those behind a newline are on other
lines.
-/

set_option autoImplicit false

namespace ConfigLang

/-! ### The order of places -/

namespace Position

/-- By the line, and on one line by the column. -/
instance : LT Position :=
  ⟨fun place other =>
    place.line < other.line ∨ place.line = other.line ∧ place.column < other.column⟩

instance : LE Position :=
  ⟨fun place other =>
    place.line < other.line ∨ place.line = other.line ∧ place.column ≤ other.column⟩

variable {place middle other : Position}

theorem lt_iff : place < other ↔
    place.line < other.line ∨ place.line = other.line ∧ place.column < other.column :=
  Iff.rfl

theorem le_iff : place ≤ other ↔
    place.line < other.line ∨ place.line = other.line ∧ place.column ≤ other.column :=
  Iff.rfl

instance (place other : Position) : Decidable (place < other) :=
  decidable_of_iff _ lt_iff.symm

protected theorem le_refl (place : Position) : place ≤ place :=
  .inr ⟨rfl, Nat.le_refl _⟩

protected theorem le_of_lt (less : place < other) : place ≤ other := by
  rw [lt_iff] at less
  rw [le_iff]
  omega

protected theorem le_trans (before : place ≤ middle) (behind : middle ≤ other) :
    place ≤ other := by
  rw [le_iff] at *
  omega

protected theorem lt_of_lt_of_le (before : place < middle) (behind : middle ≤ other) :
    place < other := by
  rw [le_iff] at behind
  rw [lt_iff] at *
  omega

protected theorem lt_of_le_of_lt (before : place ≤ middle) (behind : middle < other) :
    place < other := by
  rw [le_iff] at before
  rw [lt_iff] at *
  omega

theorem lt_past (place : Position) (char : Char) : place < place.past char := by
  by_cases feed : char = '\n'
  · subst feed
    exact .inl (Nat.lt_succ_self _)
  · have wide := char.utf8Size_pos
    rw [past_of_ne _ _ feed]
    exact .inr ⟨rfl, Nat.lt_add_of_pos_right wide⟩

theorem le_pastAll (place : Position) (chars : List Char) : place ≤ place.pastAll chars := by
  induction chars generalizing place with
  | nil => exact Position.le_refl place
  | cons char chars ih => exact Position.le_trans (Position.le_of_lt (lt_past place char)) (ih _)

theorem lt_pastAll (place : Position) {chars : List Char} (nonempty : chars ≠ []) :
    place < place.pastAll chars := by
  obtain ⟨char, others, rfl⟩ := List.exists_cons_of_ne_nil nonempty
  exact Position.lt_of_lt_of_le (lt_past place char) (le_pastAll _ others)

end Position

/-! ### Faults of characters -/

/-- A fault at a place or behind it, and before another place. -/
structure Fault.Between (first last : Position) (fault : Fault) : Prop where
  from_first : first ≤ fault.place
  before_last : fault.place < last

theorem Fault.Between.of_le {place first last : Position} {fault : Fault} (before : place ≤ first)
    (between : fault.Between first last) : fault.Between place last :=
  ⟨Position.le_trans before between.from_first, between.before_last⟩

namespace Scan

section Steps

variable (place : Position) (text : List Char)

/-- The faults in a string lie inside of it. -/
theorem quoted_between : place ≤ (quoted place text).after ∧
    ∀ fault ∈ (quoted place text).faults, fault.Between place (quoted place text).after := by
  fun_induction quoted place text with
  | case1 place | case2 place => exact ⟨Position.le_refl place, by simp⟩
  | case3 place | case4 place => exact ⟨Position.le_of_lt (Position.lt_past place _), by simp⟩
  | case5 place char rest meant is ih =>
      have opens : place ≤ (place.past '\\').past char := Position.le_pastAll place ['\\', char]
      exact ⟨Position.le_trans opens ih.1, fun fault member => (ih.2 fault member).of_le opens⟩
  | case6 place char rest is ih =>
      have slash : place ≤ place.past '\\' := Position.le_pastAll place ['\\']
      have letter : place.past '\\' < (place.past '\\').past char := Position.lt_past _ char
      have opens : place ≤ (place.past '\\').past char := Position.le_pastAll place ['\\', char]
      refine ⟨Position.le_trans opens ih.1, List.forall_mem_cons.mpr ⟨⟨slash, ?_⟩, ?_⟩⟩
      · exact Position.lt_of_lt_of_le letter ih.1
      · exact fun fault member => (ih.2 fault member).of_le opens
  | case7 place char rest _ _ _ _ opens ih =>
      have step : place < place.past char := Position.lt_past place char
      have further : place ≤ place.past char := Position.le_of_lt step
      refine ⟨Position.le_trans further ih.1, List.forall_mem_cons.mpr ⟨⟨?_, ?_⟩, ?_⟩⟩
      · exact Position.le_refl place
      · exact Position.lt_of_lt_of_le step ih.1
      · exact fun fault member => (ih.2 fault member).of_le further
  | case8 place char rest _ _ _ _ opens ih =>
      have further : place ≤ place.past char := Position.le_of_lt (Position.lt_past place char)
      exact ⟨Position.le_trans further ih.1, fun fault member => (ih.2 fault member).of_le further⟩

variable {place text} {fault : Fault}

/-- A fault at the place where characters were taken. -/
theorem between_taken {taken : List Char} (nonempty : taken ≠ []) (here : fault.place = place) :
    fault.Between place (place.pastAll taken) := by
  constructor
  · rw [here]
    exact Position.le_refl place
  · rw [here]
    exact Position.lt_pastAll place nonempty

theorem lexeme_between (found : (quoted (place.past '"') text).lexeme place = .fault fault) :
    fault.Between place (quoted (place.past '"') text).after := by
  obtain ⟨goes, inside⟩ := quoted_between (place.past '"') text
  have opens : place < place.past '"' := Position.lt_past place '"'
  unfold Quoted.lexeme at found
  split at found
  · split at found
    next => cases found
    next first others faults =>
      cases found
      exact (inside _ (by rw [faults]; exact List.mem_cons_self)).of_le (Position.le_of_lt opens)
  · cases found
    exact ⟨Position.le_refl place, Position.lt_of_lt_of_le opens goes⟩

theorem integer_between {digits rest : List Char} (nonempty : digits ≠ [])
    (found : (integer place digits rest).lexeme = .fault fault) :
    fault.Between place (integer place digits rest).after := by
  apply between_taken nonempty
  unfold integer Step.taking at found
  dsimp only at found
  split at found
  · cases found
  · cases found
    rfl

theorem number_between {afterDot : Bool} {char : Char} (digit : char.isDigit = true)
    (found : (number afterDot place (char :: text)).lexeme = .fault fault) :
    fault.Between place (number afterDot place (char :: text)).after := by
  have nonempty : (char :: text).takeWhile Char.isDigit ≠ [] := by
    rw [List.takeWhile_cons_of_pos digit]
    exact List.cons_ne_nil _ _
  unfold number at found ⊢
  split at found
  next dotted =>
    rw [if_pos dotted]
    exact integer_between nonempty found
  next undotted =>
    rw [if_neg undotted]
    dsimp only at found ⊢
    split at found
    next whole =>
      rw [if_pos whole]
      exact integer_between nonempty found
    next => cases found

theorem comment_between {char : Char} {step : Step} (is : comment? place char text = some step)
    (found : step.lexeme = .fault fault) : fault.Between place step.after := by
  unfold comment? at is
  split at is
  · cases is
    cases found
  · cases is
    cases found
  · split at is
    next inside _ _ =>
      cases is
      by_cases feed : '\n' ∈ inside
      · simp [Step.taking, feed] at found
      · simp [Step.taking, feed] at found
    next =>
      cases is
      cases found
      exact between_taken (List.cons_ne_nil _ _) rfl
  · cases is

theorem Cuts.faultless {afterDot : Bool} {step : Step} (cuts : Cuts afterDot place text step) :
    step.lexeme ≠ .fault fault := by
  intro found
  obtain ⟨taken, -, -, takes⟩ := cuts
  rw [found] at takes
  cases takes

/-- A fault is at a place that the step goes over. -/
theorem next_between {afterDot : Bool} {char : Char}
    (found : (next afterDot place char text).lexeme = .fault fault) :
    fault.Between place (next afterDot place char text).after := by
  by_cases blank : isBlank char = true
  · simp only [next, blank, ↓reduceIte] at found
    cases found
  by_cases quote : char = '"'
  · subst quote
    exact lexeme_between found
  by_cases digit : char.isDigit = true
  · simp only [next, blank, quote, digit, ↓reduceIte] at found ⊢
    exact number_between digit found
  by_cases starts : startsName char = true
  · simp only [next, blank, quote, digit, starts, ↓reduceIte] at found
    cases found
  simp only [next, blank, quote, digit, starts, ↓reduceIte] at found ⊢
  cases comment : comment? place char text with
  | some step =>
      rw [comment] at found
      exact comment_between comment found
  | none =>
      cases mark : mark? place char text with
      | some step =>
          have cuts : Cuts afterDot place (char :: text) step := mark_cuts mark
          rw [comment, mark] at found
          exact absurd found cuts.faultless
      | none =>
          rw [comment, mark] at found
          cases found
          exact ⟨Position.le_refl place, .inr ⟨rfl, Nat.lt_succ_self _⟩⟩

end Steps

/-- No step goes back. -/
theorem le_next (afterDot : Bool) (place : Position) (char : Char) (text : List Char) :
    place ≤ (next afterDot place char text).after := by
  by_cases faulty : ∃ fault, (next afterDot place char text).lexeme = .fault fault
  · obtain ⟨fault, found⟩ := faulty
    have between := next_between found
    exact Position.le_trans between.from_first (Position.le_of_lt between.before_last)
  · obtain ⟨taken, -, after, -⟩ :=
      next_cuts afterDot place char text fun fault found => faulty ⟨fault, found⟩
    rw [after]
    exact Position.le_pastAll place taken

/-- By induction on the text: the faults that are found later lie behind the step, and the fault of
the step itself lies before its end. -/
theorem run_faults_ascend (afterDot : Bool) (place : Position) (text : List Char) :
    (run afterDot place text).faults.Pairwise (fun fault other => fault.place < other.place) ∧
      ∀ fault ∈ (run afterDot place text).faults, place ≤ fault.place := by
  induction size : text.length using Nat.strongRecOn generalizing afterDot place text with
  | ind length ih =>
      cases text with
      | nil =>
          rw [run]
          exact ⟨.nil, by simp⟩
      | cons char text =>
          have shorter := length_next_le afterDot place char text
          rw [List.length_cons] at size
          have goes := le_next afterDot place char text
          have between : ∀ fault ∈ (next afterDot place char text).lexeme.faults,
              fault.Between place (next afterDot place char text).after := by
            intro fault member
            cases lexeme : (next afterDot place char text).lexeme with
            | fault other =>
                rw [lexeme] at member
                obtain rfl := List.mem_singleton.mp member
                exact next_between lexeme
            | blank | token =>
                rw [lexeme] at member
                cases member
          obtain ⟨ascend, behind⟩ := ih (next afterDot place char text).rest.length (by omega)
            ((next afterDot place char text).lexeme.afterDot afterDot)
            (next afterDot place char text).after (next afterDot place char text).rest rfl
          rw [run, Result.faults_cons]
          refine ⟨List.pairwise_append.mpr ⟨?_, ascend, ?_⟩, List.forall_mem_append.mpr ⟨?_, ?_⟩⟩
          · -- a lexeme is one fault at most
            cases (next afterDot place char text).lexeme with
            | fault fault => exact List.pairwise_singleton _ _
            | blank | token => exact .nil
          · intro fault member other later
            exact Position.lt_of_lt_of_le (between fault member).before_last (behind other later)
          · exact fun fault member => (between fault member).from_first
          · exact fun fault member => Position.le_trans goes (behind fault member)

end Scan

/-! ### The order of tokens -/

/-- The other token is on the same line or below, and if this one is a newline it is below. -/
def Token.Precedes (token other : Token) : Prop :=
  token.place.line ≤ other.place.line ∧
    (token.kind = .newline → token.place.line < other.place.line)

theorem Spelling.Spells.feed_mem {kind : Kind} {chars : List Char} (spells : Spells kind chars)
    (feeds : kind = .newline) : '\n' ∈ chars := by
  cases spells with
  | mark mark =>
      rw [feeds] at mark
      cases mark
  | feed => exact List.mem_singleton_self _
  | lines closed several =>
      have inner : '\n' ∈ _ ++ ['*', '/'] := List.mem_append_left _ several
      exact List.mem_cons_of_mem _ (List.mem_cons_of_mem _ inner)
  | ident | int | float | string => cases feeds

section Tiles

variable {afterDot : Bool} {before rest : List Char} {tokens : List Token} {spans : List Span}

theorem Position.line_behind_append (chars more : List Char) :
    (behind (chars ++ more)).line = (behind chars).line + more.count '\n' := by
  rw [behind, List.count_append, ← Nat.add_assoc]
  rfl

/-- No token is above the text that is tiled. -/
theorem Tiles.line_le (tiles : Tiles afterDot before rest tokens spans) :
    ∀ token ∈ tokens, (Position.behind before).line ≤ token.place.line := by
  induction tiles with
  | stop =>
      refine List.forall_mem_singleton.mpr ?_
      rw [Position.line_behind_append]
      exact Nat.le_add_right _ _
  | token _ _ _ _ ih =>
      simp only [Position.line_behind_append] at ih
      refine List.forall_mem_cons.mpr ⟨?_, fun token member => ?_⟩
      · rw [Position.line_behind_append]
        exact Nat.le_add_right _ _
      · have later := ih token member
        omega

/-- The spelling of a newline takes the text to another line. -/
theorem Tiles.precedes (tiles : Tiles afterDot before rest tokens spans) :
    tokens.Pairwise Token.Precedes := by
  induction tiles with
  | stop => exact List.pairwise_singleton _ _
  | token _ spells _ follow ih =>
      refine .cons (fun token member => ?_) ih
      have below := follow.line_le token member
      rw [Position.line_behind_append] at below
      refine ⟨Nat.le_trans (Nat.le_add_right _ _) below, fun feeds => ?_⟩
      have lines := List.count_pos_iff.mpr (spells.feed_mem feeds)
      dsimp only
      omega

end Tiles

namespace Token

/-- The faults of characters are reported in the order of their places. -/
theorem ofText_faults_ordered {text : String} {faults : List Fault}
    (failed : ofText text = .error faults) :
    faults ≠ [] ∧ faults.Pairwise fun fault other => fault.place < other.place := by
  unfold ofText at failed
  dsimp only at failed
  split at failed
  next => cases failed
  next faulty =>
    obtain rfl := Except.error.inj failed
    refine ⟨fun none => faulty (List.isEmpty_iff.mpr none), ?_⟩
    exact (Scan.run_faults_ascend false .start text.toList).1

/-- The tokens of a text go down to the end token. -/
theorem ofText_precedes {text : String} {tokens : List Token}
    (scanned : ofText text = .ok tokens) :
    ∃ inside stop, tokens = inside ++ [⟨.eof, stop⟩] ∧
      (inside ++ [⟨.eof, stop⟩]).Pairwise Precedes := by
  obtain ⟨spans, -, -, -, tiles, -⟩ := ofText_tiles scanned
  have run := ofText_eq_ok_iff.mp scanned
  obtain ⟨inside, stop, whole, -⟩ := Scan.run_line false .start text.toList (by rw [run])
  rw [run] at whole
  cases whole
  exact ⟨inside, stop, rfl, tiles.precedes⟩

end Token

end ConfigLang
