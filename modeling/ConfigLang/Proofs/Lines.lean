import ConfigLang.Proofs.Scanning
/-!
Scanning line by line. What a text is scanned as does not depend on the line that it begins on, and
a text without faults is scanned as it is alone where a line feed and another text follow it.
-/

set_option autoImplicit false

namespace ConfigLang

/-- The place so many lines further down. -/
def Position.below (lines : Nat) (place : Position) : Position :=
  ⟨place.line + lines, place.column⟩

def Token.below (lines : Nat) (token : Token) : Token :=
  { token with place := token.place.below lines }

def Fault.below (lines : Nat) (fault : Fault) : Fault :=
  { fault with place := fault.place.below lines }

namespace Position

variable (lines : Nat) (place : Position)

@[simp] theorem past_below (char : Char) :
    (place.below lines).past char = (place.past char).below lines := by
  unfold past
  split
  · exact congrArg (Position.mk · 1) (Nat.add_right_comm place.line lines 1)
  · rfl

@[simp] theorem pastAll_below (chars : List Char) :
    (place.below lines).pastAll chars = (place.pastAll chars).below lines := by
  induction chars generalizing place with
  | nil => rfl
  | cons char chars ih => rw [pastAll_cons, past_below, ih, pastAll_cons]

end Position

namespace Scan

/-! ### On a line further down -/

def Lexeme.below (lines : Nat) : Lexeme → Lexeme
  | .fault report => .fault (report.below lines)
  | lexeme => lexeme

def Step.below (lines : Nat) (step : Step) : Step :=
  ⟨step.lexeme.below lines, step.after.below lines, step.rest⟩

def Quoted.below (lines : Nat) (quoted : Quoted) : Quoted :=
  { quoted with faults := quoted.faults.map (·.below lines), after := quoted.after.below lines }

def Result.below (lines : Nat) (result : Result) : Result :=
  ⟨result.tokens.map (·.below lines), result.faults.map (·.below lines)⟩

section Below

variable (lines : Nat) (place : Position)

theorem taking_below (lexeme : Lexeme) (taken rest : List Char) :
    Step.taking (lexeme.below lines) (place.below lines) taken rest =
      (Step.taking lexeme place taken rest).below lines := by
  rw [Step.taking, Position.pastAll_below]
  rfl

theorem quoted_below (text : List Char) :
    quoted (place.below lines) text = (quoted place text).below lines := by
  fun_induction quoted place text <;> simp_all [quoted, Quoted.below, Quoted.cons, Quoted.blame,
    Fault.below]

theorem lexeme_below (start : Position) (text : Quoted) :
    (text.below lines).lexeme (start.below lines) = (text.lexeme start).below lines := by
  unfold Quoted.lexeme Quoted.below
  cases text.terminated with
  | false => rfl
  | true =>
      cases text.faults with
      | nil | cons => rfl

theorem integer_below (digits rest : List Char) :
    integer (place.below lines) digits rest = (integer place digits rest).below lines := by
  unfold integer
  dsimp only
  rw [← taking_below]
  split
  · rfl
  · rfl

theorem number_below (afterDot : Bool) (text : List Char) :
    number afterDot (place.below lines) text = (number afterDot place text).below lines := by
  unfold number
  split
  · exact integer_below lines place _ _
  · dsimp only
    split
    · exact integer_below lines place _ _
    · exact taking_below lines place (.token _) _ _

theorem comment?_below (char : Char) (rest : List Char) :
    comment? (place.below lines) char rest = (comment? place char rest).map (·.below lines) := by
  unfold comment?
  split
  · exact congrArg some (taking_below lines place .blank _ _)
  · exact congrArg some (taking_below lines place .blank _ _)
  · split
    next inside after _ =>
      rw [Option.map_some, ← taking_below]
      split
      · rfl
      · rfl
    next => exact congrArg some (taking_below lines place (.fault ⟨place, _⟩) _ _)
  · rfl

theorem mark?_below (char : Char) (rest : List Char) :
    mark? (place.below lines) char rest = (mark? place char rest).map (·.below lines) := by
  have single : (single? char).map (fun kind =>
      Step.taking (.token kind) (place.below lines) [char] rest) =
        ((single? char).map fun kind => Step.taking (.token kind) place [char] rest).map
          (·.below lines) := by
    cases single? char with
    | none => rfl
    | some kind => exact congrArg some (taking_below lines place (.token kind) [char] rest)
  unfold mark?
  split
  · split
    · exact congrArg some (taking_below lines place (.token _) _ _)
    · exact single
  · exact single

theorem next_below (afterDot : Bool) (char : Char) (rest : List Char) :
    next afterDot (place.below lines) char rest =
      (next afterDot place char rest).below lines := by
  unfold next
  split
  · exact taking_below lines place .blank _ _
  · split
    · dsimp only
      rw [Position.past_below, quoted_below, lexeme_below]
      rfl
    · split
      · exact number_below lines place afterDot _
      · split
        · exact taking_below lines place (.token _) _ _
        · rw [comment?_below, mark?_below]
          cases comment? place char rest with
          | some step => rfl
          | none =>
              cases mark? place char rest with
              | some step => rfl
              | none => rfl

theorem cons_below (lexeme : Lexeme) (result : Result) :
    (result.below lines).cons (place.below lines) (lexeme.below lines) =
      (result.cons place lexeme).below lines := by
  cases lexeme with
  | blank | token | fault => rfl

theorem afterDot_below (lexeme : Lexeme) (before : Bool) :
    (lexeme.below lines).afterDot before = lexeme.afterDot before := by
  cases lexeme with
  | blank | token | fault => rfl

end Below

/-- A text that begins so many lines further down is scanned as the same, so many lines further
down. -/
theorem run_below (lines : Nat) (afterDot : Bool) (place : Position) (text : List Char) :
    run afterDot (place.below lines) text = (run afterDot place text).below lines := by
  induction size : text.length using Nat.strongRecOn generalizing afterDot place text with
  | ind length ih =>
      cases text with
      | nil =>
          rw [run, run]
          rfl
      | cons char rest =>
          have shorter := length_next_le afterDot place char rest
          rw [List.length_cons] at size
          have inner := ih (next afterDot place char rest).rest.length (by omega)
            ((next afterDot place char rest).lexeme.afterDot afterDot)
            (next afterDot place char rest).after _ rfl
          rw [run, run, next_below]
          change (run ((Lexeme.below lines _).afterDot afterDot) (Position.below lines _)
            (next afterDot place char rest).rest).cons _ (Lexeme.below lines _) = _
          rw [afterDot_below, inner, cons_below]

/-! ### Before a separator -/

/-- No token goes on over this character. -/
def separates (char : Char) : Bool :=
  !(continuesName char || char ∈ ['.', '+', '=', '&', '|', '/', '*'])

/-- The same lexeme with more text behind it. -/
def Step.followed (step : Step) (more : List Char) : Step :=
  { step with rest := step.rest ++ more }

/-- A run of one kind is not longer for a separator behind it that is not of the kind. -/
theorem takeWhile_separated {α : Type} {sep : α} (text rest : List α) {test : α → Bool}
    (ends : test sep = false) :
    (text ++ sep :: rest).takeWhile test = text.takeWhile test ∧
      (text ++ sep :: rest).dropWhile test = text.dropWhile test ++ sep :: rest := by
  induction text with
  | nil => simp [ends]
  | cons char text ih =>
      cases passes : test char with
      | true => simpa [passes] using ih
      | false => simp [passes]

section Followed

variable {sep : Char} (place : Position) (text rest : List Char)

theorem continuesName_of_separates (apart : separates sep = true) : continuesName sep = false :=
  (Bool.or_eq_false_iff.mp ((Bool.not_eq_true' _).mp apart)).1

theorem ne_of_separates {char : Char} (apart : separates sep = true)
    (other : separates char = false) : sep ≠ char := by
  rintro rfl
  rw [apart] at other
  cases other

theorem isDigit_of_separates (apart : separates sep = true) : sep.isDigit = false :=
  isDigit_of_continuesName (continuesName_of_separates apart)

theorem fraction_separated (apart : separates sep = true) :
    fraction (text ++ sep :: rest) = ((fraction text).1, (fraction text).2 ++ sep :: rest) := by
  obtain ⟨taken, left⟩ := takeWhile_separated text.tail rest (isDigit_of_separates apart)
  unfold fraction
  cases text with
  | nil =>
      have other : sep ≠ '.' := ne_of_separates apart rfl
      simp [other]
  | cons char inner =>
      by_cases point : char = '.'
      · subst point
        rw [List.tail_cons] at taken left
        simp only [List.cons_append, taken, left]
        split
        · rfl
        · rfl
      · simp [point]

theorem sign_separated (apart : separates sep = true) :
    sign (text ++ sep :: rest) = ((sign text).1, (sign text).2 ++ sep :: rest) := by
  unfold sign
  cases text with
  | nil =>
      have plus : sep ≠ '+' := ne_of_separates apart rfl
      have minus : sep ≠ '-' := ne_of_separates apart rfl
      simp [plus, minus]
  | cons char inner =>
      by_cases plus : char = '+'
      · simp [plus]
      · by_cases minus : char = '-'
        · simp [minus]
        · simp [plus, minus]

theorem power_separated (apart : separates sep = true) :
    power (text ++ sep :: rest) = ((power text).1, (power text).2 ++ sep :: rest) := by
  cases text with
  | nil =>
      have small : sep ≠ 'e' := ne_of_separates apart rfl
      have capital : sep ≠ 'E' := ne_of_separates apart rfl
      simp [power, small, capital]
  | cons mark inner =>
      obtain ⟨taken, left⟩ :=
        takeWhile_separated (sign inner).2 rest (isDigit_of_separates apart)
      rw [List.cons_append, power, power, sign_separated inner rest apart]
      simp only [taken, left]
      split
      · rfl
      · rfl

theorem number_separated (apart : separates sep = true) (afterDot : Bool) :
    number afterDot place (text ++ sep :: rest) =
      (number afterDot place text).followed (sep :: rest) := by
  obtain ⟨taken, left⟩ := takeWhile_separated text rest (isDigit_of_separates apart)
  unfold number
  simp only [taken, left, fraction_separated _ rest apart, power_separated _ rest apart]
  split
  · rfl
  · split
    · rfl
    · rfl

theorem name_separated (apart : separates sep = true) :
    name place (text ++ sep :: rest) = (name place text).followed (sep :: rest) := by
  obtain ⟨taken, left⟩ := takeWhile_separated text rest (continuesName_of_separates apart)
  rw [name, name, taken, left]
  rfl

theorem inside?_append {inside after : List Char} (found : inside? text = some (inside, after)) :
    inside? (text ++ rest) = some (inside, after ++ rest) := by
  fun_induction inside? text generalizing inside after with
  | case1 text =>
      cases found
      rfl
  | case2 char text open_ ih =>
      obtain ⟨⟨inner, last⟩, inner_found, same⟩ := Option.map_eq_some_iff.mp found
      cases same
      have whole := ih inner_found
      rw [List.cons_append, inside?, whole]
      · rfl
      · intro others star slash
        cases text with
        | nil => cases inner_found
        | cons second text =>
            rw [List.cons_append, List.cons.injEq] at slash
            exact open_ text star (by rw [slash.1])
  | case3 => cases found

/-- A character that is no line feed, no quote and no backslash stands for itself. -/
theorem quoted_plain {char : Char} (unfed : char ≠ '\n') (unquoted : char ≠ '"')
    (unslashed : char ≠ '\\') :
    quoted place (char :: text) =
      if opensTemplate char text = true then
        ((quoted (place.past char) text).cons char).blame ⟨place, .template char⟩
      else (quoted (place.past char) text).cons char := by
  rw [quoted]
  · exact unfed
  · exact unquoted
  · intro slash
    exact absurd slash unslashed
  · intro _ _ slash
    exact absurd slash unslashed

/-- The same string with more text behind it. -/
def Quoted.followed (quoted : Quoted) (more : List Char) : Quoted :=
  { quoted with rest := quoted.rest ++ more }

/-- A plain character of a string, which is read the same with more text behind it if what follows
the character is. -/
theorem quoted_plain_followed {char : Char} (unfed : char ≠ '\n') (unquoted : char ≠ '"')
    (unslashed : char ≠ '\\') (same : opensTemplate char (text ++ rest) = opensTemplate char text)
    (inner : quoted (place.past char) (text ++ rest) =
      (quoted (place.past char) text).followed rest) :
    quoted place (char :: text ++ rest) = (quoted place (char :: text)).followed rest := by
  rw [List.cons_append, quoted_plain _ _ unfed unquoted unslashed,
    quoted_plain _ _ unfed unquoted unslashed, inner, same]
  split
  · rfl
  · rfl

/-- What is no escape, at the end of the text or before it, does not begin with a backslash. -/
theorem ne_backslash {char : Char} {text : List Char} (last : char = '\\' → text = [] → False)
    (escaped : ∀ second others, char = '\\' → text = second :: others → False) : char ≠ '\\' := by
  intro slash
  cases text with
  | nil => exact last slash rfl
  | cons second text => exact escaped second text slash rfl

/-- A string that has its end is read to the same end. -/
theorem quoted_append (closed : (quoted place text).terminated = true) :
    quoted place (text ++ rest) = (quoted place text).followed rest := by
  have plain : ∀ {place char text}, char ≠ '\n' → char ≠ '"' → char ≠ '\\' →
      (quoted (place.past char) text).terminated = true →
      quoted (place.past char) (text ++ rest) = (quoted (place.past char) text).followed rest →
      quoted place (char :: text ++ rest) = (quoted place (char :: text)).followed rest := by
    intro place char text unfed unquoted unslashed closed inner
    refine quoted_plain_followed place text rest unfed unquoted unslashed ?_ inner
    cases text with
    | nil => cases closed
    | cons => rfl
  fun_induction quoted place text with
  | case1 | case2 | case4 => cases closed
  | case3 => rfl
  | case5 place char text meant is ih =>
      rw [List.cons_append, List.cons_append, quoted]
      simp only [is, ih closed]
      rfl
  | case6 place char text is ih =>
      rw [List.cons_append, List.cons_append, quoted]
      simp only [is, ih closed]
      rfl
  | case7 place char text unfed unquoted last escaped opens ih =>
      have unslashed := ne_backslash last escaped
      rw [plain unfed unquoted unslashed closed (ih closed),
        quoted_plain _ _ unfed unquoted unslashed, if_pos opens]
  | case8 place char text unfed unquoted last escaped opens ih =>
      have unslashed := ne_backslash last escaped
      rw [plain unfed unquoted unslashed closed (ih closed),
        quoted_plain _ _ unfed unquoted unslashed, if_neg opens]

/-- A comment to the end of the line begins with this character. -/
def OpensLine (char : Char) (text : List Char) : Prop :=
  char = '#' ∨ char = '/' ∧ text.head? = some '/'

/-- A comment that has its end is read to the same end. Only a line feed ends one that goes to the
end of the line. -/
theorem comment?_separated (apart : separates sep = true) {char : Char}
    (closed : ∀ step ∈ comment? place char text, ∀ fault, step.lexeme ≠ .fault fault)
    (ends : OpensLine char text → sep = '\n' ∨ '\n' ∈ text) :
    comment? place char (text ++ sep :: rest) =
      (comment? place char text).map (·.followed (sep :: rest)) := by
  have line : ∀ text : List Char, sep = '\n' ∨ '\n' ∈ text →
      (text ++ sep :: rest).takeWhile (· ≠ '\n') = text.takeWhile (· ≠ '\n') ∧
        (text ++ sep :: rest).dropWhile (· ≠ '\n') =
          text.dropWhile (· ≠ '\n') ++ sep :: rest := by
    rintro text (rfl | inner)
    · exact takeWhile_separated text rest rfl
    · obtain ⟨before, behind, rfl⟩ := List.append_of_mem inner
      have upTo := fun behind => @takeWhile_separated Char '\n' before behind (· ≠ '\n') rfl
      have short := upTo behind
      have long := upTo (behind ++ sep :: rest)
      rw [List.append_assoc, List.cons_append, long.1, long.2, short.1, short.2, List.append_assoc,
        List.cons_append]
      exact ⟨rfl, rfl⟩
  by_cases hash : char = '#'
  · subst hash
    obtain ⟨taken, left⟩ := line text (ends (.inl rfl))
    simp only [comment?, taken, left]
    rfl
  by_cases slash : char = '/'
  · subst slash
    cases text with
    | nil =>
        have one : sep ≠ '/' := ne_of_separates apart rfl
        have star : sep ≠ '*' := ne_of_separates apart rfl
        simp [comment?, one, star]
    | cons second text =>
        by_cases line_comment : second = '/'
        · subst line_comment
          have feed : sep = '\n' ∨ '\n' ∈ text := by simpa using ends (.inr ⟨rfl, rfl⟩)
          obtain ⟨taken, left⟩ := line text feed
          simp only [List.cons_append, comment?, taken, left]
          rfl
        by_cases block_comment : second = '*'
        · subst block_comment
          cases found : inside? text with
          | some pair =>
              obtain ⟨inside, after⟩ := pair
              simp only [List.cons_append, comment?, inside?_append text _ found, found]
              rfl
          | none =>
              simp only [comment?, found] at closed
              exact absurd rfl (closed _ rfl _)
        · simp [comment?, line_comment, block_comment]
  · simp [comment?, slash]

theorem mark?_separated (apart : separates sep = true) {char : Char} :
    mark? place char (text ++ sep :: rest) =
      (mark? place char text).map (·.followed (sep :: rest)) := by
  have single : ∀ text : List Char,
      (single? char).map (fun kind =>
          Step.taking (.token kind) place [char] (text ++ sep :: rest)) =
        ((single? char).map fun kind => Step.taking (.token kind) place [char] text).map
          (·.followed (sep :: rest)) := by
    intro text
    cases single? char with
    | none => rfl
    | some kind => rfl
  cases text with
  | nil =>
      have alone : double? char sep = none := by
        unfold double?
        split
        case h_7 => rfl
        all_goals cases apart
      rw [List.nil_append, mark?, alone]
      exact single []
  | cons second text =>
      rw [List.cons_append, mark?, mark?]
      split
      · rfl
      · exact single (second :: text)

/-- A lexeme is read the same before a separator if, being a string or a comment, it does not go on
over it. -/
theorem next_followed (apart : separates sep = true) (flag : Bool) (char : Char)
    (strings : char = '"' → quoted (place.past '"') (text ++ sep :: rest) =
      (quoted (place.past '"') text).followed (sep :: rest))
    (comments : comment? place char (text ++ sep :: rest) =
      (comment? place char text).map (·.followed (sep :: rest))) :
    next flag place char (text ++ sep :: rest) =
      (next flag place char text).followed (sep :: rest) := by
  by_cases blank : isBlank char = true
  · simp only [next, blank, ↓reduceIte]
    rfl
  by_cases quote : char = '"'
  · simp only [next, quote, ↓reduceIte, strings quote]
    rfl
  by_cases digit : char.isDigit = true
  · simp only [next, blank, quote, digit, ↓reduceIte]
    exact number_separated place (char :: text) rest apart flag
  by_cases starts : startsName char = true
  · simp only [next, blank, quote, digit, starts, ↓reduceIte]
    exact name_separated place (char :: text) rest apart
  simp only [next, blank, quote, digit, starts, ↓reduceIte, comments]
  rw [mark?_separated _ _ _ apart]
  cases comment? place char text with
  | some step => rfl
  | none =>
      cases mark? place char text with
      | some step => rfl
      | none => rfl

/-- Nothing else begins like a comment. -/
theorem next_of_comment {char : Char} {step : Step} (flag : Bool)
    (found : comment? place char text = some step) : next flag place char text = step := by
  have begins : char = '#' ∨ char = '/' := by
    unfold comment? at found
    split at found
    · exact .inl rfl
    · exact .inr rfl
    · exact .inr rfl
    · cases found
  have unmarked : isBlank char = false ∧ char ≠ '"' ∧ char.isDigit = false ∧
      startsName char = false := by
    rcases begins with rfl | rfl
    · decide
    · decide
  obtain ⟨unblank, unquoted, undigit, unnamed⟩ := unmarked
  simp only [next, unblank, unquoted, undigit, unnamed, Bool.false_eq_true, ↓reduceIte, found]

/-- What is no fault is read the same before a separator. -/
theorem next_separated (apart : separates sep = true) (flag : Bool) (char : Char)
    (faultless : ∀ fault, (next flag place char text).lexeme ≠ .fault fault)
    (ends : OpensLine char text → sep = '\n' ∨ '\n' ∈ text) :
    next flag place char (text ++ sep :: rest) =
      (next flag place char text).followed (sep :: rest) := by
  have closed : ∀ step ∈ comment? place char text, ∀ fault, step.lexeme ≠ .fault fault := by
    intro step found
    rwa [next_of_comment place text flag found] at faultless
  refine next_followed place text rest apart flag char ?_
    (comment?_separated place text rest apart closed ends)
  rintro rfl
  cases closed : (quoted (place.past '"') text).terminated with
  | false =>
      have fails : (next flag place '"' text).lexeme = .fault ⟨place, .unterminatedString⟩ := by
        change (quoted (place.past '"') text).lexeme place = _
        rw [Quoted.lexeme, closed]
        rfl
      exact absurd fails (faultless _)
  | true => exact quoted_append _ _ _ closed

end Followed

theorem single?_ne_eof {char : Char} {kind : Kind} (single : single? char = some kind) :
    kind ≠ .eof := by
  rintro rfl
  unfold single? at single
  split at single
  all_goals cases single

theorem double?_ne_eof {first second : Char} {kind : Kind}
    (double : double? first second = some kind) : kind ≠ .eof := by
  rintro rfl
  unfold double? at double
  split at double
  all_goals cases double

theorem mark?_ne_eof {place : Position} {char : Char} {rest : List Char} {step : Step}
    (found : mark? place char rest = some step) : step.lexeme ≠ .token .eof := by
  have single : ∀ {rest}, (single? char).map (fun kind =>
      Step.taking (.token kind) place [char] rest) = some step → step.lexeme ≠ .token .eof := by
    intro rest found
    obtain ⟨kind, is, rfl⟩ := Option.map_eq_some_iff.mp found
    exact fun same => single?_ne_eof is (Lexeme.token.inj same)
  unfold mark? at found
  split at found
  · split at found
    next kind is =>
      cases found
      exact fun same => double?_ne_eof is (Lexeme.token.inj same)
    next => exact single found
  · exact single found

theorem comment?_ne_eof {place : Position} {char : Char} {rest : List Char} {step : Step}
    (found : comment? place char rest = some step) : step.lexeme ≠ .token .eof := by
  unfold comment? at found
  split at found
  · cases found
    exact nofun
  · cases found
    exact nofun
  · split at found
    next inside after _ =>
      cases found
      by_cases feed : '\n' ∈ inside
      · simp [Step.taking, feed]
      · simp [Step.taking, feed]
    next =>
      cases found
      exact nofun
  · cases found

theorem integer_ne_eof (place : Position) (digits rest : List Char) :
    (integer place digits rest).lexeme ≠ .token .eof := by
  unfold integer Step.taking
  dsimp only
  split
  · simp
  · simp

/-- Only the end of the text gives an end token. -/
theorem next_ne_eof (flag : Bool) (place : Position) (char : Char) (rest : List Char) :
    (next flag place char rest).lexeme ≠ .token .eof := by
  unfold next
  split
  · simp [Step.taking]
  · split
    · dsimp only
      unfold Quoted.lexeme
      split
      · split
        · simp
        · simp
      · simp
    · split
      · unfold number
        split
        · exact integer_ne_eof _ _ _
        · dsimp only
          split
          · exact integer_ne_eof _ _ _
          · simp [Step.taking]
      · split
        · simp [name, Step.taking]
        · split
          next found => exact comment?_ne_eof found
          next =>
            split
            next found => exact mark?_ne_eof found
            next => simp

theorem run_token {flag : Bool} {place after : Position} {char : Char} {rest left : List Char}
    {kind : Kind} (read : next flag place char rest = ⟨.token kind, after, left⟩) :
    run flag place (char :: rest) = (run (kind = .dot) after left).prepend [⟨kind, place⟩] := by
  rw [run, read]
  rfl

theorem run_blank {flag : Bool} {place after : Position} {char : Char} {rest left : List Char}
    (read : next flag place char rest = ⟨.blank, after, left⟩) :
    run flag place (char :: rest) = run flag after left := by
  rw [run, read]
  rfl

theorem next_newline (flag : Bool) (place : Position) (rest : List Char) :
    next flag place '\n' rest = ⟨.token .newline, place.past '\n', rest⟩ :=
  next_mark flag place rfl fun _ _ => ⟨rfl, nofun⟩

/-- A text without faults before a line feed: its tokens, then the line feed in place of the end,
then the text behind it, which begins a new line and follows no dot. -/
theorem run_line (flag : Bool) (place : Position) (text : List Char)
    (faultless : (run flag place text).faults = []) :
    ∃ tokens after, run flag place text = ⟨tokens ++ [⟨.eof, after⟩], []⟩ ∧
      (∀ token ∈ tokens, token.kind ≠ .eof) ∧
      ∀ rest, run flag place (text ++ '\n' :: rest) =
        (run false (after.past '\n') rest).prepend (tokens ++ [⟨.newline, after⟩]) := by
  induction size : text.length using Nat.strongRecOn generalizing flag place text with
  | ind length ih =>
      cases text with
      | nil =>
          refine ⟨[], place, by rw [run]; rfl, nofun, ?_⟩
          intro rest
          rw [List.nil_append, run_token (next_newline flag place rest)]
          rfl
      | cons char text =>
          have shorter := length_next_le flag place char text
          rw [List.length_cons] at size
          have inner := ih (next flag place char text).rest.length (by omega)
            ((next flag place char text).lexeme.afterDot flag)
            (next flag place char text).after (next flag place char text).rest
          have line := fun rest clean =>
            @next_separated '\n' place text rest rfl flag char clean fun _ => .inl rfl
          have inside := next_ne_eof flag place char text
          have goes : ∀ rest, run flag place (char :: text ++ '\n' :: rest) =
              let step := next flag place char (text ++ '\n' :: rest)
              (run (step.lexeme.afterDot flag) step.after step.rest).cons place step.lexeme := by
            intro rest
            rw [List.cons_append, run]
          rw [run] at faultless
          rw [run]
          generalize next flag place char text = step at *
          obtain ⟨lexeme, after, left⟩ := step
          cases lexeme with
          | fault fault => cases faultless
          | blank =>
              obtain ⟨tokens, last, whole, ended, follow⟩ := inner faultless rfl
              have clean : ∀ fault, Lexeme.blank ≠ .fault fault := by
                intro fault same
                cases same
              refine ⟨tokens, last, whole, ended, ?_⟩
              intro rest
              rw [goes, line rest clean]
              exact follow rest
          | token kind =>
              obtain ⟨tokens, last, whole, ended, follow⟩ := inner faultless rfl
              have clean : ∀ fault, Lexeme.token kind ≠ .fault fault := by
                intro fault same
                cases same
              refine ⟨⟨kind, place⟩ :: tokens, last, ?_, ?_, ?_⟩
              · dsimp only at whole ⊢
                rw [whole]
                rfl
              · exact List.forall_mem_cons.mpr ⟨fun same => inside (congrArg _ same), ended⟩
              · intro rest
                rw [goes, line rest clean]
                dsimp only [Step.followed] at follow ⊢
                rw [follow]
                rfl

end Scan

/-- A text has tokens where its scan finds no fault. -/
theorem Token.ofText_eq_ok_iff {text : String} {tokens : List Token} :
    Token.ofText text = .ok tokens ↔ Scan.run false .start text.toList = ⟨tokens, []⟩ := by
  unfold Token.ofText
  dsimp only
  obtain ⟨found, faults⟩ := Scan.run false .start text.toList
  cases faults with
  | nil => simp
  | cons fault faults => simp

end ConfigLang
