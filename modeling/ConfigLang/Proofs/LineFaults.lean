import ConfigLang.Proofs.Spelling
/-!
Faults line by line. A text and a text on the lines below it have the faults that they have each
alone, unless the first ends in a string literal whose last character is a backslash: the line feed
is then taken for the letter of an escape, and the string goes on over the line below.
-/

set_option autoImplicit false

namespace ConfigLang

namespace Scan

/-! ### Strings before a line feed -/

/-- What stands behind an opening quote goes up to a backslash, and no letter is left for it. -/
inductive Dangles : List Char → Prop
  | last : Dangles ['\\']
  | plain {char : Char} {text : List Char} (bare : char ∉ ['"', '\\', '\n'])
      (follow : Dangles text) : Dangles (char :: text)
  | escape {letter : Char} {text : List Char} (follow : Dangles text) :
      Dangles ('\\' :: letter :: text)

section Strings

variable (place : Position) (text rest : List Char)

/-- A string is read the same before a line feed, unless a backslash is left for it. -/
theorem quoted_line (settled : ¬Dangles text) :
    quoted place (text ++ '\n' :: rest) = (quoted place text).followed ('\n' :: rest) := by
  have plain : ∀ {place : Position} {char : Char} {text : List Char}, char ≠ '\n' → char ≠ '"' →
      char ≠ '\\' → ¬Dangles (char :: text) →
      (¬Dangles text → quoted (place.past char) (text ++ '\n' :: rest) =
        (quoted (place.past char) text).followed ('\n' :: rest)) →
      quoted place (char :: text ++ '\n' :: rest) =
        (quoted place (char :: text)).followed ('\n' :: rest) := by
    intro place char text unfed unquoted unslashed settled inner
    have bare : char ∉ ['"', '\\', '\n'] := by simp [unfed, unquoted, unslashed]
    refine quoted_plain_followed place text ('\n' :: rest) unfed unquoted unslashed ?_
      (inner fun dangles => settled (.plain bare dangles))
    cases text with
    | nil => simp [opensTemplate]
    | cons => rfl
  fun_induction quoted place text with
  | case1 | case2 | case3 => rfl
  | case4 => exact absurd .last settled
  | case5 place char text meant is ih =>
      rw [List.cons_append, List.cons_append, quoted]
      simp only [is, ih fun dangles => settled (.escape dangles)]
      rfl
  | case6 place char text is ih =>
      rw [List.cons_append, List.cons_append, quoted]
      simp only [is, ih fun dangles => settled (.escape dangles)]
      rfl
  | case7 place char text unfed unquoted last escaped opens ih =>
      have unslashed := ne_backslash last escaped
      rw [plain unfed unquoted unslashed settled ih, quoted_plain _ _ unfed unquoted unslashed,
        if_pos opens]
  | case8 place char text unfed unquoted last escaped opens ih =>
      have unslashed := ne_backslash last escaped
      rw [plain unfed unquoted unslashed settled ih, quoted_plain _ _ unfed unquoted unslashed,
        if_neg opens]

/-- A string that is left at a backslash takes the line feed for the letter of an escape. Nothing
that is read behind it stands for itself, up to the end that the string has there. -/
theorem quoted_dangles {text : List Char} (dangles : Dangles text) (place : Position)
    (rest : List Char) :
    (quoted place text).terminated = false ∧ (quoted place text).rest = [] ∧
      ∃ contents fault faults, quoted place (text ++ '\n' :: rest) =
        let inner := quoted ((quoted place text).after.past '\n') rest
        ⟨inner.terminated, contents, fault :: faults, inner.after, inner.rest⟩ := by
  induction dangles generalizing place with
  | last => exact ⟨rfl, rfl, _, _, _, rfl⟩
  | @plain char text bare _ ih =>
      obtain ⟨ends, left, contents, fault, faults, read⟩ := ih (place.past char)
      simp only [List.mem_cons, List.not_mem_nil, or_false, not_or] at bare
      rw [List.cons_append, quoted_plain _ _ bare.2.2 bare.1 bare.2.1,
        quoted_plain _ _ bare.2.2 bare.1 bare.2.1, read]
      have same : opensTemplate char (text ++ '\n' :: rest) = opensTemplate char text := by
        cases text with
        | nil => simp [opensTemplate]
        | cons => rfl
      rw [same]
      split
      · exact ⟨ends, left, _, _, _, rfl⟩
      · exact ⟨ends, left, _, _, _, rfl⟩
  | @escape letter text _ ih =>
      obtain ⟨ends, left, contents, fault, faults, read⟩ := ih ((place.past '\\').past letter)
      rw [List.cons_append, List.cons_append, quoted, quoted]
      cases unescape? letter with
      | some meant =>
          dsimp only
          rw [read]
          exact ⟨ends, left, _, _, _, rfl⟩
      | none =>
          dsimp only
          rw [read]
          exact ⟨ends, left, _, _, _, rfl⟩

end Strings

/-! ### Lines -/

section Lines

variable (afterDot : Bool) (place : Position) (char : Char) (text : List Char)

theorem line_past : (place.past char).line = place.line + [char].count '\n' := by
  by_cases feed : char = '\n'
  · subst feed
    rfl
  · rw [Position.past_of_ne _ _ feed, List.count_eq_zero.mpr (by simpa using Ne.symm feed)]
    rfl

theorem line_pastAll : (place.pastAll text).line = place.line + text.count '\n' := by
  induction text generalizing place with
  | nil => rfl
  | cons char text ih =>
      rw [Position.pastAll_cons, ih, line_past, Nat.add_assoc, ← List.count_append,
        List.singleton_append]

theorem line_past_add (taken : List Char) :
    (place.past char).line + taken.count '\n' = place.line + (char :: taken).count '\n' := by
  rw [line_past, Nat.add_assoc, ← List.count_append, List.singleton_append]

theorem quoted_takes : ∃ taken, text = taken ++ (quoted place text).rest ∧
    (quoted place text).after.line = place.line + taken.count '\n' := by
  fun_induction quoted place text with
  | case1 | case2 => exact ⟨[], rfl, rfl⟩
  | case3 place rest => exact ⟨['"'], rfl, line_past place '"'⟩
  | case4 place => exact ⟨['\\'], rfl, line_past place '\\'⟩
  | case5 place char rest meant is ih | case6 place char rest is ih =>
      obtain ⟨taken, whole, lines⟩ := ih
      refine ⟨'\\' :: char :: taken, congrArg ('\\' :: char :: ·) whole, lines.trans ?_⟩
      rw [line_past_add, line_past_add]
  | case7 place char rest _ _ _ _ _ ih | case8 place char rest _ _ _ _ _ ih =>
      obtain ⟨taken, whole, lines⟩ := ih
      exact ⟨char :: taken, congrArg (char :: ·) whole, lines.trans (line_past_add place char taken)⟩

/-- A number is what it takes from the front of the text. -/
theorem number_takes : ∃ lexeme taken rest, text = taken ++ rest ∧
    number afterDot place text = .taking lexeme place taken rest := by
  have digits : ∃ lexeme taken rest, text = taken ++ rest ∧
      integer place (text.takeWhile Char.isDigit) (text.dropWhile Char.isDigit) =
        .taking lexeme place taken rest :=
    ⟨_, _, _, List.takeWhile_append_dropWhile.symm, rfl⟩
  unfold number
  split
  · exact digits
  · dsimp only
    split
    · exact digits
    · refine ⟨_, _, _, ?_, rfl⟩
      rw [List.append_assoc, List.append_assoc, ← (power_spells _).2, ← (fraction_spells _).2,
        List.takeWhile_append_dropWhile]

theorem comment_takes {step : Step} (found : comment? place char text = some step) :
    ∃ lexeme taken rest, char :: text = taken ++ rest ∧ step = .taking lexeme place taken rest := by
  unfold comment? at found
  split at found
  · cases found
    exact ⟨_, _, _, by simp, rfl⟩
  · cases found
    exact ⟨_, _, _, by simp, rfl⟩
  · split at found
    next read =>
      cases found
      obtain ⟨-, -, rfl, -⟩ := inside?_isComment read
      exact ⟨_, _, _, rfl, rfl⟩
    next =>
      cases found
      exact ⟨_, _, _, (List.append_nil _).symm, rfl⟩
  · cases found

theorem mark_takes {step : Step} (found : mark? place char text = some step) :
    ∃ lexeme taken rest, char :: text = taken ++ rest ∧ step = .taking lexeme place taken rest := by
  have single : ∀ {text}, (single? char).map (fun kind =>
      Step.taking (.token kind) place [char] text) = some step → ∃ lexeme taken rest,
        char :: text = taken ++ rest ∧ step = .taking lexeme place taken rest := by
    intro text found
    obtain ⟨kind, -, rfl⟩ := Option.map_eq_some_iff.mp found
    exact ⟨_, _, _, rfl, rfl⟩
  unfold mark? at found
  split at found
  · split at found
    · cases found
      exact ⟨_, _, _, rfl, rfl⟩
    · exact single found
  · exact single found

/-- A lexeme is taken from the front of the text, and the lines are counted by its line feeds. -/
theorem next_takes : ∃ taken, char :: text = taken ++ (next afterDot place char text).rest ∧
    (next afterDot place char text).after.line = place.line + taken.count '\n' := by
  have taking : ∀ {step : Step}, (∃ lexeme taken rest, char :: text = taken ++ rest ∧
      step = .taking lexeme place taken rest) → ∃ taken, char :: text = taken ++ step.rest ∧
        step.after.line = place.line + taken.count '\n' := by
    rintro step ⟨lexeme, taken, rest, whole, rfl⟩
    exact ⟨taken, whole, line_pastAll place taken⟩
  unfold next
  split
  · exact taking ⟨_, [char], text, rfl, rfl⟩
  · split
    next quote =>
      subst quote
      obtain ⟨taken, whole, lines⟩ := quoted_takes (place.past '"') text
      exact ⟨'"' :: taken, congrArg ('"' :: ·) whole,
        lines.trans (line_past_add place '"' taken)⟩
    next =>
      split
      · exact taking (number_takes afterDot place (char :: text))
      · split
        · exact taking ⟨_, _, _, List.takeWhile_append_dropWhile.symm, rfl⟩
        · split
          next found => exact taking (comment_takes place char text found)
          next =>
            split
            next found => exact taking (mark_takes place char text found)
            next unmarked =>
              -- a character that is no lexeme is no line feed
              have unfed : char ≠ '\n' := by
                rintro rfl
                cases text with
                | nil | cons => cases unmarked
              exact ⟨[char], rfl, by rw [List.count_singleton, if_neg (by simpa using unfed)]; rfl⟩

theorem next_suffix : (next afterDot place char text).rest <:+ text := by
  obtain ⟨taken, whole, -⟩ := next_takes afterDot place char text
  rcases List.suffix_cons_iff.mp ⟨taken, whole.symm⟩ with all | inner
  · have shorter := length_next_le afterDot place char text
    rw [all] at shorter
    exact absurd shorter (Nat.not_succ_le_self _)
  · exact inner

end Lines

/-- What a lexeme adds to the faults of a text. -/
def Lexeme.faults : Lexeme → List Fault
  | .fault report => [report]
  | _ => []

theorem Result.faults_cons (place : Position) (lexeme : Lexeme) (result : Result) :
    (result.cons place lexeme).faults = lexeme.faults ++ result.faults := by
  cases lexeme with
  | blank | token | fault => rfl

/-- The scan of the text ends in a string that goes up to a backslash. -/
inductive Hangs : Bool → Position → List Char → Prop
  | string {afterDot : Bool} {place : Position} {text : List Char} (dangles : Dangles text) :
      Hangs afterDot place ('"' :: text)
  | later {afterDot : Bool} {place : Position} {char : Char} {text : List Char}
      (follow : Hangs ((next afterDot place char text).lexeme.afterDot afterDot)
        (next afterDot place char text).after (next afterDot place char text).rest) :
      Hangs afterDot place (char :: text)

theorem Dangles.getLast? {text : List Char} (dangles : Dangles text) : text.getLast? = some '\\' := by
  induction dangles with
  | last => rfl
  | plain _ _ ih => rw [List.getLast?_cons, ih]; rfl
  | escape _ ih => rw [List.getLast?_cons, List.getLast?_cons, ih]; rfl

/-- Only a backslash at the end leaves a text hanging. -/
theorem Hangs.getLast? {afterDot : Bool} {place : Position} {text : List Char}
    (hangs : Hangs afterDot place text) : text.getLast? = some '\\' := by
  induction hangs with
  | string dangles => rw [List.getLast?_cons, dangles.getLast?]; rfl
  | @later afterDot place char text _ ih =>
      obtain ⟨taken, whole⟩ := next_suffix afterDot place char text
      rw [← whole, List.getLast?_cons, List.getLast?_append, ih]
      rfl

section Faults

variable {afterDot : Bool} {place : Position} {char : Char} {text : List Char}

/-- A lexeme of a text with no mark of a block comment in it is read the same before a line feed,
unless it is a string with a backslash left for it. -/
theorem next_before_feed (uncommented : ¬['/', '*'] <:+: char :: text)
    (settled : char = '"' → ¬Dangles text) (rest : List Char) :
    next afterDot place char (text ++ '\n' :: rest) =
      (next afterDot place char text).followed ('\n' :: rest) := by
  refine next_followed place text rest rfl afterDot char
    (fun quote => quoted_line (place.past '"') text rest (settled quote)) ?_
  refine comment?_separated place text rest rfl ?_ fun _ => .inl rfl
  intro step found fault
  unfold comment? at found
  split at found
  · cases found
    exact nofun
  · cases found
    exact nofun
  · exact absurd (List.prefix_append ['/', '*'] _).isInfix uncommented
  · cases found

/-- A text that does not hang has its faults, and the text below it has its own. -/
theorem run_faults_line (uncommented : ¬['/', '*'] <:+: text)
    (settled : ¬Hangs afterDot place text) (rest : List Char) :
    (run afterDot place (text ++ '\n' :: rest)).faults = (run afterDot place text).faults ++
      (run false ⟨place.line + text.count '\n' + 1, 1⟩ rest).faults := by
  induction size : text.length using Nat.strongRecOn generalizing afterDot place text with
  | ind length ih =>
      cases text with
      | nil =>
          rw [List.nil_append, run_token (next_newline afterDot place rest), run]
          rfl
      | cons char text =>
          have shorter := length_next_le afterDot place char text
          have left := next_suffix afterDot place char text
          obtain ⟨taken, whole, lines⟩ := next_takes afterDot place char text
          have step := @next_before_feed afterDot place char text uncommented
            (fun quote dangles => settled (by subst quote; exact .string dangles)) rest
          have inner := ih (next afterDot place char text).rest.length
            (by rw [List.length_cons] at size; omega)
            (fun comment => uncommented (List.infix_cons (comment.trans left.isInfix)))
            (fun hangs => settled (.later hangs)) rfl
          rw [List.cons_append, run, run, step, Result.faults_cons, Result.faults_cons,
            List.append_assoc]
          refine congrArg (_ ++ ·) (inner.trans ?_)
          rw [lines, whole, List.count_append, ← Nat.add_assoc]

/-- The string that a text hangs in is not reported for itself. It goes on over the text below,
and what it takes of that text is not scanned for faults. -/
theorem run_faults_hanging (uncommented : ¬['/', '*'] <:+: text)
    (hangs : Hangs afterDot place text) (rest : List Char) :
    ∃ before opening fault flag, (run afterDot place text).faults =
        before ++ [⟨opening, .unterminatedString⟩] ∧
      let inner := quoted ⟨place.line + text.count '\n' + 1, 1⟩ rest
      (run afterDot place (text ++ '\n' :: rest)).faults =
          before ++ fault :: (run flag inner.after inner.rest).faults ∧
        (inner.terminated = false → fault = ⟨opening, .unterminatedString⟩) := by
  induction hangs with
  | @string afterDot place text dangles =>
      obtain ⟨ends, left, contents, fault, faults, read⟩ :=
        quoted_dangles dangles (place.past '"') rest
      obtain ⟨taken, whole, lines⟩ := quoted_takes (place.past '"') text
      have below : (quoted (place.past '"') text).after.past '\n' =
          ⟨place.line + ('"' :: text).count '\n' + 1, 1⟩ := by
        rw [left, List.append_nil] at whole
        rw [Position.past_newline, lines, ← whole, line_past_add]
      have alone : next afterDot place '"' text =
          ⟨.fault ⟨place, .unterminatedString⟩, (quoted (place.past '"') text).after, []⟩ := by
        change Step.mk ((quoted (place.past '"') text).lexeme place) _ _ = _
        rw [Quoted.lexeme, ends, left]
        rfl
      rw [below] at read
      have joined : next afterDot place '"' (text ++ '\n' :: rest) = _ :=
        congrArg (fun quoted => Step.mk (quoted.lexeme place) quoted.after quoted.rest) read
      generalize quoted ⟨place.line + ('"' :: text).count '\n' + 1, 1⟩ rest = inner at *
      rw [List.cons_append, run, run, alone, joined, Result.faults_cons, Result.faults_cons]
      cases closed : inner.terminated with
      | false =>
          refine ⟨[], place, ⟨place, .unterminatedString⟩, afterDot, ?_, ?_, fun _ => rfl⟩
          · rw [run]
            rfl
          · simp [Quoted.lexeme, closed, Lexeme.faults, Lexeme.afterDot]
      | true =>
          refine ⟨[], place, fault, afterDot, ?_, ?_,
            fun unclosed => absurd (closed.symm.trans unclosed) (by decide)⟩
          · rw [run]
            rfl
          · simp [Quoted.lexeme, closed, Lexeme.faults, Lexeme.afterDot]
  | @later afterDot place char text follow ih =>
      obtain ⟨taken, whole, lines⟩ := next_takes afterDot place char text
      have left := next_suffix afterDot place char text
      obtain ⟨before, opening, fault, flag, alone, joined, open_⟩ :=
        ih fun comment => uncommented (List.infix_cons (comment.trans left.isInfix))
      -- a string that hangs leaves nothing to go on with
      have settled : char = '"' → ¬Dangles text := by
        rintro rfl dangles
        have empty := (quoted_dangles dangles (place.past '"') []).2.1
        change Hangs _ _ (quoted (place.past '"') text).rest at follow
        rw [empty] at follow
        cases follow
      have same : place.line + (char :: text).count '\n' =
          (next afterDot place char text).after.line +
            (next afterDot place char text).rest.count '\n' := by
        rw [lines, whole, List.count_append, ← Nat.add_assoc]
      rw [same, List.cons_append, run, run, next_before_feed uncommented settled rest,
        Result.faults_cons, Result.faults_cons, alone]
      refine ⟨(next afterDot place char text).lexeme.faults ++ before, opening, fault, flag,
        (List.append_assoc _ _ _).symm, ?_, open_⟩
      rw [List.append_assoc]
      exact congrArg (_ ++ ·) joined

end Faults

end Scan

namespace Token

/-- What is wrong with the characters of a text. -/
def faults (text : String) : List Fault :=
  match ofText text with
  | .ok _ => []
  | .error faults => faults

theorem faults_eq (text : String) : faults text = (Scan.run false .start text.toList).faults := by
  unfold faults ofText
  dsimp only
  cases found : (Scan.run false .start text.toList).faults with
  | nil => rfl
  | cons fault others => rfl

/-- Of two texts, one on the lines below the other, the faults are those of the first and then those
of the second so many lines further down, unless the first hangs in a string that goes up to a
backslash. Then that string goes on over the text below, up to a quote or a line feed, and nothing
is heard of what it takes there. -/
theorem faults_append_line {first : String} (uncommented : ¬['/', '*'] <:+: first.toList) :
    (¬Scan.Hangs false .start first.toList → ∀ second : String,
      faults (first ++ "\n" ++ second) = faults first ++
        (faults second).map (·.below (first.toList.count '\n' + 1))) ∧
    (Scan.Hangs false .start first.toList → first.toList.getLast? = some '\\' ∧
      ∀ second : String, ∃ before opening fault afterDot,
        faults first = before ++ [⟨opening, .unterminatedString⟩] ∧
        let inner := Scan.quoted (Position.start.below (first.toList.count '\n' + 1)) second.toList
        faults (first ++ "\n" ++ second) =
            before ++ fault :: (Scan.run afterDot inner.after inner.rest).faults ∧
          (inner.terminated = false → fault = ⟨opening, .unterminatedString⟩)) := by
  have joined : ∀ second : String, (first ++ "\n" ++ second).toList =
      first.toList ++ '\n' :: second.toList := by
    intro second
    rw [String.toList_append, String.toList_append, List.append_assoc]
    rfl
  have below : (⟨Position.start.line + first.toList.count '\n' + 1, 1⟩ : Position) =
      Position.start.below (first.toList.count '\n' + 1) := by
    rw [Nat.add_assoc]
    rfl
  constructor
  · intro settled second
    rw [faults_eq, faults_eq, faults_eq, joined, Scan.run_faults_line uncommented settled, below,
      Scan.run_below]
    rfl
  · intro hangs
    refine ⟨hangs.getLast?, ?_⟩
    intro second
    have hanging := Scan.run_faults_hanging uncommented hangs second.toList
    rw [below] at hanging
    rwa [faults_eq, faults_eq, joined]

/-- A string without an end, and a text that is faulty below it. -/
theorem faults_append_line_open :
    ¬['/', '*'] <:+: "a = \"b\nc".toList ∧
      faults ("a = \"b\nc" ++ "\n" ++ "d = \"\\q\" $") =
        [⟨⟨1, 5⟩, .unterminatedString⟩, ⟨⟨3, 7⟩, .invalidEscape 'q'⟩,
          ⟨⟨3, 10⟩, .unexpectedCharacter '$'⟩] := by
  have uncommented : ¬['/', '*'] <:+: "a = \"b\nc".toList := by decide +kernel
  have settled : ¬Scan.Hangs false .start "a = \"b\nc".toList := by
    intro hangs
    exact absurd hangs.getLast? (by decide +kernel)
  refine ⟨uncommented, ?_⟩
  rw [(faults_append_line uncommented).1 settled]
  decide +kernel

/-- A backslash at the end of a line takes the line below into a string, and hides its fault. -/
theorem faults_below_backslash :
    ¬['/', '*'] <:+: "a = \"b\\".toList ∧
      faults "a = \"b\\" = [⟨⟨1, 5⟩, .unterminatedString⟩] ∧
      faults "c = $" = [⟨⟨1, 5⟩, .unexpectedCharacter '$'⟩] ∧
      faults ("a = \"b\\" ++ "\n" ++ "c = $") = [⟨⟨1, 5⟩, .unterminatedString⟩] := by
  exact ⟨by decide +kernel, by decide +kernel, by decide +kernel, by decide +kernel⟩

end Token

end ConfigLang
