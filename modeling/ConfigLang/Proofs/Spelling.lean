import ConfigLang.Proofs.Lines
import Mathlib.Algebra.GroupWithZero.Nat
/-!
How tokens are written. A text that is scanned without a fault is cut into the spellings of its
tokens, in order, with nothing but blanks and comments between them, and the place of a token is
counted from the characters before its spelling.
-/

set_option autoImplicit false

namespace ConfigLang

/-! ### Spellings -/

/-- The spelling of a kind that has only one. -/
def Kind.spelling? : Kind → Option String
  | .assign => some "="
  | .colon => some ":"
  | .comma => some ","
  | .dot => some "."
  | .leftParen => some "("
  | .rightParen => some ")"
  | .leftBrace => some "\x7b"
  | .rightBrace => some "\x7d"
  | .leftBracket => some "["
  | .rightBracket => some "]"
  | kind => kind.symbol?

namespace Spelling

/-- One digit or more. -/
structure IsDigits (chars : List Char) : Prop where
  nonempty : chars ≠ []
  inside : ∀ char ∈ chars, char.isDigit = true

/-- `('.' digit+)?`, with the digits -/
inductive Fraction : List Char → List Char → Prop
  | none : Fraction [] []
  | point {digits : List Char} (places : IsDigits digits) : Fraction ('.' :: digits) digits

/-- `(('e' | 'E') ('+' | '-')? digit+)?`, with its value -/
inductive Exponent : List Char → Int → Prop
  | none : Exponent [] 0
  | plain {mark : Char} {digits : List Char} (marks : mark = 'e' ∨ mark = 'E')
      (number : IsDigits digits) : Exponent (mark :: digits) (Decimal.natural digits)
  | plus {mark : Char} {digits : List Char} (marks : mark = 'e' ∨ mark = 'E')
      (number : IsDigits digits) : Exponent (mark :: '+' :: digits) (Decimal.natural digits)
  | minus {mark : Char} {digits : List Char} (marks : mark = 'e' ∨ mark = 'E')
      (number : IsDigits digits) : Exponent (mark :: '-' :: digits) (-Decimal.natural digits)

/-- The letter after a backslash, and the character that the two stand for. -/
inductive Escape : Char → Char → Prop
  | feed : Escape 'n' '\n'
  | tab : Escape 't' '\t'
  | carriage : Escape 'r' '\r'
  | backslash : Escape '\\' '\\'
  | quote : Escape '"' '"'
  | dollar : Escape '$' '$'

/-- What stands between quotes, and the contents that it stands for. No line feed is among it, nor
the beginning of a template. -/
inductive Quotes : List Char → List Char → Prop
  | nil : Quotes [] []
  | plain {char : Char} {body contents : List Char} (bare : char ∉ ['"', '\\', '\n'])
      (plain : char ∈ ['$', '%'] → body.head? ≠ some '{') (follow : Quotes body contents) :
      Quotes (char :: body) (char :: contents)
  | escape {letter meant : Char} {body contents : List Char} (escape : Escape letter meant)
      (follow : Quotes body contents) : Quotes ('\\' :: letter :: body) (meant :: contents)

/-- What stands in a block comment, which ends at the first end mark. -/
def IsComment (inside : List Char) : Prop :=
  ¬['*', '/'] <:+: inside ++ ['*']

/-- A block comment in full. -/
def comment (inside : List Char) : List Char :=
  '/' :: '*' :: (inside ++ ['*', '/'])

/-- The ways to write a token. A comment over several lines is written for a newline. -/
inductive Spells : Kind → List Char → Prop
  | mark {kind : Kind} {chars : List Char} (mark : kind.spelling? = some (String.ofList chars)) :
      Spells kind chars
  | ident {name : String} (named : Source.isName name) : Spells (.ident name) name.toList
  | int {value : Int64} {digits : List Char} (number : IsDigits digits)
      (same : value.toInt = Decimal.natural digits) : Spells (.int value) digits
  | float {whole fraction places scale : List Char} {exponent : Int} (number : IsDigits whole)
      (fractional : Fraction fraction places) (scaled : Exponent scale exponent)
      (marked : fraction ≠ [] ∨ scale ≠ []) :
      Spells (.float (Decimal.ofDigits whole places exponent).nearest)
        (whole ++ (fraction ++ scale))
  | string {body contents : List Char} (quotes : Quotes body contents) :
      Spells (.string (String.ofList contents)) ('"' :: (body ++ ['"']))
  | feed : Spells .newline ['\n']
  | lines {inside : List Char} (closed : IsComment inside) (several : '\n' ∈ inside) :
      Spells .newline (comment inside)

/-- What may stand before a rest of the text without being part of a token. A comment to the end of
a line goes up to the line feed. -/
inductive Gap : List Char → List Char → Prop
  | none {rest : List Char} : Gap [] rest
  | blank {char : Char} {gap rest : List Char} (blank : char ∈ [' ', '\t', '\r'])
      (follow : Gap gap rest) : Gap (char :: gap) rest
  | line {mark text rest : List Char} (opens : mark = ['#'] ∨ mark = ['/', '/'])
      (inline : '\n' ∉ text) (ends : ∀ char ∈ rest.head?, char = '\n') : Gap (mark ++ text) rest
  | block {inside gap rest : List Char} (closed : IsComment inside) (inline : '\n' ∉ inside)
      (follow : Gap gap rest) : Gap (comment inside ++ gap) rest

/-- A spelling is never empty. -/
theorem Spells.ne_nil {kind : Kind} {chars : List Char} (spells : Spells kind chars) :
    chars ≠ [] := by
  cases spells with
  | mark mark =>
      rintro rfl
      cases kind with
      | int | float | ident | string | newline | eof => cases mark
      | _ => exact absurd mark (by decide)
  | @ident name named =>
      intro empty
      rw [Source.isName, empty] at named
      cases named
  | int number => exact number.nonempty
  | float number => exact List.append_ne_nil_of_left_ne_nil number.nonempty _
  | string | feed | lines => exact List.cons_ne_nil _ _

end Spelling

/-! ### Places -/

namespace Position

/-- How many bytes characters take. -/
def bytes (chars : List Char) : Nat :=
  (chars.map Char.utf8Size).sum

@[simp] theorem bytes_append (first second : List Char) :
    bytes (first ++ second) = bytes first + bytes second := by
  rw [bytes, List.map_append, List.sum_append]
  rfl

theorem bytes_pos {chars : List Char} (nonempty : chars ≠ []) : 0 < bytes chars := by
  obtain ⟨char, others, rfl⟩ := List.exists_cons_of_ne_nil nonempty
  have wide := char.utf8Size_pos
  rw [bytes, List.map_cons, List.sum_cons]
  omega

/-- The characters after the last line feed. -/
def lastLine (chars : List Char) : List Char :=
  (chars.reverse.takeWhile (· ≠ '\n')).reverse

/-- The place behind the characters of a text up to there: the line feeds among them count the
lines, and the bytes after the last of them the columns. -/
def behind (chars : List Char) : Position :=
  ⟨1 + chars.count '\n', 1 + bytes (lastLine chars)⟩

theorem lastLine_feed (chars : List Char) : lastLine (chars ++ ['\n']) = [] := by
  rw [lastLine, List.reverse_append]
  rfl

theorem lastLine_concat (chars : List Char) {char : Char} (inline : char ≠ '\n') :
    lastLine (chars ++ [char]) = lastLine chars ++ [char] := by
  rw [lastLine, List.reverse_append, List.reverse_singleton, List.singleton_append,
    List.takeWhile_cons, if_pos (decide_eq_true inline), List.reverse_cons]
  rfl

theorem behind_concat (chars : List Char) (char : Char) :
    behind (chars ++ [char]) = (behind chars).past char := by
  by_cases feed : char = '\n'
  · subst feed
    rw [behind, lastLine_feed, List.count_append, ← Nat.add_assoc]
    rfl
  · have other : [char].count '\n' = 0 := List.count_eq_zero.mpr (by simpa using Ne.symm feed)
    rw [behind, lastLine_concat chars feed, List.count_append, other, Nat.add_zero, bytes_append,
      ← Nat.add_assoc 1 (bytes _), past_of_ne _ _ feed]
    rfl

/-- Character by character, the same place is reached. -/
theorem pastAll_behind (chars more : List Char) :
    (behind chars).pastAll more = behind (chars ++ more) := by
  induction more generalizing chars with
  | nil => rw [pastAll_nil, List.append_nil]
  | cons char more ih =>
      rw [pastAll_cons, ← behind_concat, ih, List.append_assoc, List.singleton_append]

theorem pastAll_start (chars : List Char) : start.pastAll chars = behind chars :=
  pastAll_behind [] chars

end Position

/-! ### Lexemes -/

namespace Scan

open Spelling

/-- What a lexeme is taken for: a token is spelled by it, and the rest is part of a gap. Behind a
dot no number is taken for a float. -/
inductive Takes (afterDot : Bool) : Lexeme → List Char → List Char → Prop
  | token {kind : Kind} {taken rest : List Char} (spells : Spells kind taken)
      (whole : afterDot = true → ∀ value, kind ≠ .float value) :
      Takes afterDot (.token kind) taken rest
  | blank {char : Char} {rest : List Char} (blank : char ∈ [' ', '\t', '\r']) :
      Takes afterDot .blank [char] rest
  | line {mark text rest : List Char} (opens : mark = ['#'] ∨ mark = ['/', '/'])
      (inline : '\n' ∉ text) (ends : ∀ char ∈ rest.head?, char = '\n') :
      Takes afterDot .blank (mark ++ text) rest
  | block {inside rest : List Char} (closed : IsComment inside) (inline : '\n' ∉ inside) :
      Takes afterDot .blank (comment inside) rest

/-- The step takes characters from the front of the text, and its lexeme is taken for them. -/
def Cuts (afterDot : Bool) (place : Position) (text : List Char) (step : Step) : Prop :=
  ∃ taken, text = taken ++ step.rest ∧ step.after = place.pastAll taken ∧
    Takes afterDot step.lexeme taken step.rest

section Cuts

variable {afterDot : Bool} {place : Position} {text rest : List Char}

theorem cuts_taking {lexeme : Lexeme} {taken : List Char} (whole : text = taken ++ rest)
    (takes : Takes afterDot lexeme taken rest) :
    Cuts afterDot place text (.taking lexeme place taken rest) :=
  ⟨taken, whole, rfl, takes⟩

theorem cuts_token {kind : Kind} {taken : List Char} (whole : text = taken ++ rest)
    (spells : Spells kind taken) (inexact : ∀ value, kind ≠ .float value) :
    Cuts afterDot place text (.taking (.token kind) place taken rest) :=
  cuts_taking whole (.token spells fun _ => inexact)

/-! ### Numbers -/

theorem isDigits_takeWhile (nonempty : text.takeWhile Char.isDigit ≠ []) :
    IsDigits (text.takeWhile Char.isDigit) :=
  ⟨nonempty, List.all_eq_true.mp List.all_takeWhile⟩

theorem fraction_spells (text : List Char) :
    Fraction (if (fraction text).1.isEmpty then [] else '.' :: (fraction text).1)
        (fraction text).1 ∧
      text = (if (fraction text).1.isEmpty then [] else '.' :: (fraction text).1) ++
        (fraction text).2 := by
  unfold fraction
  split
  next inner =>
    cases some : (inner.takeWhile Char.isDigit).isEmpty with
    | true => exact ⟨.none, rfl⟩
    | false =>
        simp only [Bool.false_eq_true, ↓reduceIte, some]
        refine ⟨.point (isDigits_takeWhile (List.isEmpty_eq_false_iff.mp some)), ?_⟩
        rw [List.cons_append, List.takeWhile_append_dropWhile]
  next => exact ⟨.none, rfl⟩

/-- The value of an exponent that is written without a sign, and with one. -/
theorem power?_digits {mark : Char} {digits : List Char} (marks : mark = 'e' ∨ mark = 'E')
    (number : IsDigits digits) :
    Decimal.power? (mark :: digits) = some (Decimal.natural digits : Int) ∧
      Decimal.power? (mark :: '+' :: digits) = some (Decimal.natural digits : Int) ∧
      Decimal.power? (mark :: '-' :: digits) = some (-(Decimal.natural digits : Int)) := by
  have marked : ¬(mark ≠ 'e' ∧ mark ≠ 'E') := by
    rintro ⟨small, capital⟩
    exact marks.elim small capital
  obtain ⟨first, others, rfl⟩ := List.exists_cons_of_ne_nil number.nonempty
  obtain ⟨digit, more⟩ := List.forall_mem_cons.mp number.inside
  have unsigned : first ≠ '-' ∧ first ≠ '+' := by
    constructor
    · rintro rfl
      cases digit
    · rintro rfl
      cases digit
  simpa [Decimal.power?, marked, unsigned] using ⟨digit, more⟩

theorem sign_spells (text : List Char) :
    ((sign text).1 = [] ∨ (sign text).1 = ['+'] ∨ (sign text).1 = ['-']) ∧
      text = (sign text).1 ++ (sign text).2 := by
  unfold sign
  split
  · exact ⟨.inr (.inl rfl), rfl⟩
  · exact ⟨.inr (.inr rfl), rfl⟩
  · exact ⟨.inl rfl, rfl⟩

theorem power_spells (text : List Char) :
    Exponent (power text).1 ((Decimal.power? (power text).1).getD 0) ∧
      text = (power text).1 ++ (power text).2 := by
  unfold power
  split
  next mark inner =>
    dsimp only
    split
    next both =>
      obtain ⟨marks, nonempty⟩ := both
      have number := isDigits_takeWhile nonempty
      obtain ⟨bare, plus, minus⟩ := power?_digits marks number
      obtain ⟨signs, whole⟩ := sign_spells inner
      constructor
      · rcases signs with unsigned | positive | negative
        · rw [unsigned, List.nil_append, bare]
          exact .plain marks number
        · rw [positive, List.singleton_append, plus]
          exact .plus marks number
        · rw [negative, List.singleton_append, minus]
          exact .minus marks number
      · rw [List.cons_append, List.append_assoc, List.takeWhile_append_dropWhile, ← whole]
    next => exact ⟨.none, rfl⟩
  next => exact ⟨.none, rfl⟩

theorem integer_cuts (afterDot : Bool) {digits : List Char} (number : IsDigits digits)
    (faultless : ∀ fault, (integer place digits rest).lexeme ≠ .fault fault) :
    Cuts afterDot place (digits ++ rest) (integer place digits rest) := by
  unfold integer at *
  by_cases small : Decimal.natural digits < 0x8000000000000000
  · simp only [small, ↓reduceIte]
    refine cuts_token rfl (.int number ?_) fun value => by simp
    exact Int64.toInt_ofNat_of_lt small
  · simp only [small, ↓reduceIte] at faultless
    exact absurd rfl (faultless _)

theorem float_cuts (place : Position) {whole : List Char} (number : IsDigits whole)
    (marked : ((fraction rest).1.isEmpty && (power (fraction rest).2).1.isEmpty) = false) :
    Cuts false place (whole ++ rest)
      (.taking (.token (.float (Decimal.ofDigits whole (fraction rest).1
          ((Decimal.power? (power (fraction rest).2).1).getD 0)).nearest)) place
        (whole ++ (if (fraction rest).1.isEmpty then [] else '.' :: (fraction rest).1) ++
          (power (fraction rest).2).1) (power (fraction rest).2).2) := by
  obtain ⟨fractional, fraction_whole⟩ := fraction_spells rest
  obtain ⟨scaled, power_whole⟩ := power_spells (fraction rest).2
  apply cuts_taking
  · rw [List.append_assoc, List.append_assoc, ← power_whole, ← fraction_whole]
  · rw [List.append_assoc]
    refine .token (.float number fractional scaled ?_) nofun
    rcases Bool.and_eq_false_iff.mp marked with point | mark
    · left
      rw [point]
      exact List.cons_ne_nil _ _
    · right
      exact List.isEmpty_eq_false_iff.mp mark

theorem number_cuts {char : Char} (digit : char.isDigit = true)
    (faultless : ∀ fault, (number afterDot place (char :: text)).lexeme ≠ .fault fault) :
    Cuts afterDot place (char :: text) (number afterDot place (char :: text)) := by
  have nonempty : (char :: text).takeWhile Char.isDigit ≠ [] := by
    rw [List.takeWhile_cons_of_pos digit]
    exact List.cons_ne_nil _ _
  have digits := isDigits_takeWhile nonempty
  have whole := List.takeWhile_append_dropWhile (p := Char.isDigit) (l := char :: text)
  cases afterDot with
  | true =>
      have cuts := integer_cuts true digits faultless
      rwa [whole] at cuts
  | false =>
      cases marked : (fraction ((char :: text).dropWhile Char.isDigit)).1.isEmpty &&
          (power (fraction ((char :: text).dropWhile Char.isDigit)).2).1.isEmpty with
      | true =>
          simp only [number, marked, Bool.false_eq_true, ↓reduceIte] at faultless ⊢
          have cuts := integer_cuts false digits faultless
          rwa [whole] at cuts
      | false =>
          simp only [number, marked, Bool.false_eq_true, ↓reduceIte]
          have cuts := float_cuts place digits marked
          rwa [whole] at cuts

/-! ### Names, comments and marks -/

theorem name_cuts {char : Char} (starts : startsName char = true) :
    Cuts afterDot place (char :: text) (name place (char :: text)) := by
  have taken : (char :: text).takeWhile continuesName = char :: text.takeWhile continuesName :=
    List.takeWhile_cons_of_pos (continuesName_of_startsName starts)
  have named : Source.isName (String.ofList (char :: text.takeWhile continuesName)) := by
    rw [Source.isName, String.toList_ofList]
    exact Bool.and_eq_true_iff.mpr ⟨starts, List.all_takeWhile⟩
  have spells := Spells.ident named
  rw [String.toList_ofList] at spells
  rw [name, taken]
  refine cuts_token ?_ spells fun value => by simp
  rw [← taken, List.takeWhile_append_dropWhile]

/-- What is read up to an end mark has no other end mark in it. -/
theorem inside?_isComment {inside after : List Char} (found : inside? text = some (inside, after)) :
    ∃ body, inside = body ++ ['*', '/'] ∧ text = inside ++ after ∧ IsComment body := by
  fun_induction inside? text generalizing inside after with
  | case1 rest =>
      cases found
      exact ⟨[], rfl, rfl, by unfold IsComment; decide⟩
  | case2 char rest open_ ih =>
      obtain ⟨⟨inner, last⟩, inner_found, same⟩ := Option.map_eq_some_iff.mp found
      cases same
      obtain ⟨body, rfl, rfl, closed⟩ := ih inner_found
      refine ⟨char :: body, rfl, rfl, ?_⟩
      intro ends
      rcases List.infix_cons_iff.mp ends with front | inner
      · obtain ⟨others, same⟩ := front
        obtain ⟨rfl, slash⟩ := List.cons.inj same
        cases body with
        | nil => cases slash
        | cons second body =>
            obtain ⟨rfl, -⟩ := List.cons.inj slash
            exact open_ _ rfl rfl
      · exact closed inner
  | case3 => cases found

theorem comment_cuts {char : Char} {step : Step} (found : comment? place char text = some step)
    (faultless : ∀ fault, step.lexeme ≠ .fault fault) :
    Cuts afterDot place (char :: text) step := by
  have line : ∀ (mark text : List Char), mark = ['#'] ∨ mark = ['/', '/'] →
      Cuts afterDot place (mark ++ text) (.taking .blank place
        (mark ++ text.takeWhile (· ≠ '\n')) (text.dropWhile (· ≠ '\n'))) := by
    intro mark text opens
    apply cuts_taking
    · rw [List.append_assoc, List.takeWhile_append_dropWhile]
    · refine .line opens ?_ ?_
      · intro feed
        exact absurd (List.all_eq_true.mp List.all_takeWhile _ feed) (by decide)
      · intro char first
        have ends := List.head?_dropWhile_not (· ≠ '\n') text
        rw [Option.mem_def.mp first] at ends
        simpa using ends
  unfold comment? at found
  split at found
  · cases found
    exact line ['#'] _ (.inl rfl)
  · cases found
    exact line ['/', '/'] _ (.inr rfl)
  · split at found
    next read =>
      cases found
      obtain ⟨body, rfl, rfl, closed⟩ := inside?_isComment read
      have several : '\n' ∈ body ++ ['*', '/'] ↔ '\n' ∈ body := by simp
      simp only [several]
      by_cases feed : '\n' ∈ body
      · simp only [feed, ↓reduceIte]
        exact cuts_token (by simp) (.lines closed feed) nofun
      · simp only [feed, ↓reduceIte]
        exact cuts_taking (by simp) (.block closed feed)
    next =>
      cases found
      exact absurd rfl (faultless _)
  · cases found

theorem single?_spells {char : Char} {kind : Kind} (single : single? char = some kind) :
    Spells kind [char] ∧ ∀ value, kind ≠ .float value := by
  unfold single? at single
  split at single
  case h_1 =>
    cases single
    exact ⟨.feed, nofun⟩
  case h_20 => cases single
  all_goals
    cases single
    exact ⟨.mark rfl, nofun⟩

theorem double?_spells {first second : Char} {kind : Kind}
    (double : double? first second = some kind) :
    Spells kind [first, second] ∧ ∀ value, kind ≠ .float value := by
  unfold double? at double
  split at double
  case h_7 => cases double
  all_goals
    cases double
    exact ⟨.mark rfl, nofun⟩

theorem mark_cuts {char : Char} {step : Step} (found : mark? place char text = some step) :
    Cuts afterDot place (char :: text) step := by
  have single : ∀ {step}, (single? char).map (fun kind =>
      Step.taking (.token kind) place [char] text) = some step →
        Cuts afterDot place (char :: text) step := by
    intro step found
    obtain ⟨kind, is, rfl⟩ := Option.map_eq_some_iff.mp found
    obtain ⟨spells, inexact⟩ := single?_spells is
    exact cuts_token rfl spells inexact
  unfold mark? at found
  split at found
  · split at found
    next is =>
      cases found
      obtain ⟨spells, inexact⟩ := double?_spells is
      exact cuts_token rfl spells inexact
    next => exact single found
  · exact single found

/-! ### Strings -/

theorem unescape?_escape {letter meant : Char} (is : unescape? letter = some meant) :
    Escape letter meant := by
  unfold unescape? at is
  split at is
  case h_7 => cases is
  all_goals
    cases is
    constructor

/-- A string that is read to its end without a fault. -/
theorem quoted_quotes (place : Position) (text : List Char)
    (closed : (quoted place text).terminated = true) (faultless : (quoted place text).faults = []) :
    ∃ body, text = body ++ '"' :: (quoted place text).rest ∧
      (quoted place text).after = place.pastAll (body ++ ['"']) ∧
      Quotes body (quoted place text).contents := by
  fun_induction quoted place text with
  | case1 | case2 | case4 => cases closed
  | case3 place rest => exact ⟨[], rfl, rfl, .nil⟩
  | case5 place letter rest meant is ih =>
      obtain ⟨body, whole, after, quotes⟩ := ih closed faultless
      refine ⟨'\\' :: letter :: body, ?_, after, .escape (unescape?_escape is) quotes⟩
      exact congrArg ('\\' :: letter :: ·) whole
  | case6 | case7 => cases faultless
  | case8 place char rest unfed unquoted last escaped opens ih =>
      obtain ⟨body, whole, after, quotes⟩ := ih closed faultless
      refine ⟨char :: body, congrArg (char :: ·) whole, after, .plain ?_ ?_ quotes⟩
      · simpa using ⟨unquoted, ne_backslash last escaped, unfed⟩
      · intro template brace
        obtain ⟨others, rfl⟩ := List.head?_eq_some_iff.mp brace
        apply opens
        rw [whole]
        simpa [opensTemplate] using template

theorem quoted_cuts
    (faultless : ∀ fault, (quoted (place.past '"') text).lexeme place ≠ .fault fault) :
    Cuts afterDot place ('"' :: text) ⟨(quoted (place.past '"') text).lexeme place,
      (quoted (place.past '"') text).after, (quoted (place.past '"') text).rest⟩ := by
  have read := quoted_quotes (place.past '"') text
  generalize quoted (place.past '"') text = quoted at *
  obtain ⟨terminated, contents, faults, after, rest⟩ := quoted
  cases terminated with
  | false => exact absurd rfl (faultless _)
  | true =>
      cases faults with
      | cons fault faults => exact absurd rfl (faultless _)
      | nil =>
          obtain ⟨body, rfl, rfl, quotes⟩ := read rfl rfl
          refine ⟨'"' :: (body ++ ['"']), ?_, rfl, .token (.string quotes) nofun⟩
          simp

/-- A step that finds no fault takes what its lexeme is written as. -/
theorem next_cuts (afterDot : Bool) (place : Position) (char : Char) (text : List Char)
    (faultless : ∀ fault, (next afterDot place char text).lexeme ≠ .fault fault) :
    Cuts afterDot place (char :: text) (next afterDot place char text) := by
  by_cases blank : isBlank char = true
  · simp only [next, blank, ↓reduceIte]
    exact cuts_taking rfl (.blank (by simpa [isBlank, or_assoc] using blank))
  by_cases quote : char = '"'
  · subst quote
    exact quoted_cuts faultless
  by_cases digit : char.isDigit = true
  · simp only [next, blank, quote, digit, ↓reduceIte] at faultless ⊢
    exact number_cuts digit faultless
  by_cases starts : startsName char = true
  · simp only [next, blank, quote, digit, starts, ↓reduceIte]
    exact name_cuts starts
  simp only [next, blank, quote, digit, starts, ↓reduceIte] at faultless ⊢
  cases comment : comment? place char text with
  | some step =>
      simp only [comment] at faultless
      exact comment_cuts comment faultless
  | none =>
      cases mark : mark? place char text with
      | some step => exact mark_cuts mark
      | none =>
          simp only [comment, mark] at faultless
          exact absurd rfl (faultless _)

end Cuts

end Scan

/-! ### The tokens of a text -/

/-- A range of bytes. -/
structure Span where
  start : Nat
  stop : Nat
deriving DecidableEq, Repr

open Spelling

/-- The rest of a text is cut up: gaps and spellings take turns, and the spelling of every token
stands in its span. The place of a token is behind the characters before its spelling, and the end
token is behind all of them. -/
inductive Tiles : Bool → List Char → List Char → List Token → List Span → Prop
  | stop {afterDot : Bool} {before gap : List Char} (blank : Gap gap []) :
      Tiles afterDot before gap [⟨.eof, .behind (before ++ gap)⟩] []
  | token {afterDot : Bool} {before gap slice rest : List Char} {kind : Kind}
      {tokens : List Token} {spans : List Span} (blank : Gap gap (slice ++ rest))
      (spells : Spells kind slice) (whole : afterDot = true → ∀ value, kind ≠ .float value)
      (follow : Tiles (kind = .dot) (before ++ gap ++ slice) rest tokens spans) :
      Tiles afterDot before (gap ++ (slice ++ rest)) (⟨kind, .behind (before ++ gap)⟩ :: tokens)
        (⟨Position.bytes (before ++ gap), Position.bytes (before ++ gap ++ slice)⟩ :: spans)

section Tiles

variable {afterDot : Bool} {before rest : List Char} {tokens : List Token} {spans : List Span}

/-- A gap never begins with a line feed. -/
theorem Spelling.Gap.head {gap : List Char} (blank : Gap gap rest) :
    ∀ char ∈ gap.head?, char ≠ '\n' := by
  rintro char first rfl
  cases blank with
  | none => cases first
  | blank blank =>
      cases first
      exact absurd blank (by decide)
  | line opens =>
      rcases opens with rfl | rfl
      · cases first
      · cases first
  | block => cases first

/-- More of a gap in front of a text. -/
theorem Tiles.widen {taken : List Char} (tiles : Tiles afterDot (before ++ taken) rest tokens spans)
    (wider : ∀ gap follow, rest = gap ++ follow → Gap gap follow → Gap (taken ++ gap) follow) :
    Tiles afterDot before (taken ++ rest) tokens spans := by
  cases tiles with
  | stop blank =>
      rw [List.append_assoc]
      exact .stop (wider rest [] (List.append_nil rest).symm blank)
  | token blank spells whole follow =>
      rw [List.append_assoc before] at follow ⊢
      rw [← List.append_assoc taken]
      exact .token (wider _ _ rfl blank) spells whole follow

/-- What is taken for a blank widens the gap before the text behind it. -/
theorem Tiles.blank {taken : List Char}
    (tiles : Tiles afterDot (before ++ taken) rest tokens spans)
    (takes : Scan.Takes afterDot .blank taken rest) :
    Tiles afterDot before (taken ++ rest) tokens spans := by
  apply tiles.widen
  rintro gap follow rfl blank
  cases takes with
  | blank char => exact .blank char blank
  | @line mark text _ opens inline ends =>
      -- the comment goes up to the end of its line, and no gap begins there
      cases gap with
      | nil =>
          rw [List.append_nil]
          exact .line opens inline ends
      | cons char gap => exact absurd (ends char rfl) (blank.head char rfl)
  | block closed inline => exact .block closed inline blank

/-- A token that is spelled at the front of a text. -/
theorem Tiles.cons {taken : List Char} {kind : Kind}
    (tiles : Tiles (kind = .dot) (before ++ taken) rest tokens spans)
    (takes : Scan.Takes afterDot (.token kind) taken rest) :
    Tiles afterDot before (taken ++ rest) (⟨kind, .behind before⟩ :: tokens)
      (⟨Position.bytes before, Position.bytes (before ++ taken)⟩ :: spans) := by
  cases takes with
  | token spells whole =>
      rw [← List.append_nil before] at tiles
      have step := Tiles.token .none spells whole tiles
      rwa [List.append_nil] at step

/-- What is scanned without a fault tiles the text. -/
theorem Scan.run_tiles (afterDot : Bool) (before rest : List Char)
    (faultless : (run afterDot (.behind before) rest).faults = []) :
    ∃ spans, Tiles afterDot before rest (run afterDot (.behind before) rest).tokens spans := by
  induction size : rest.length using Nat.strongRecOn generalizing afterDot before rest with
  | ind length ih =>
      cases rest with
      | nil =>
          refine ⟨[], ?_⟩
          have last : Tiles afterDot before [] [⟨.eof, .behind (before ++ [])⟩] [] := .stop .none
          rw [List.append_nil] at last
          rwa [run]
      | cons char rest =>
          have shorter := length_next_le afterDot (.behind before) char rest
          have cuts := next_cuts afterDot (.behind before) char rest
          rw [run] at faultless ⊢
          rw [List.length_cons] at size
          generalize next afterDot (.behind before) char rest = step at *
          obtain ⟨lexeme, after, left⟩ := step
          have goes := fun afterDot before =>
            ih left.length (by dsimp only at shorter; omega) afterDot before left
          cases lexeme with
          | fault fault => cases faultless
          | blank =>
              obtain ⟨taken, whole, rfl, takes⟩ := cuts (by intro fault same; cases same)
              rw [Position.pastAll_behind] at faultless ⊢
              obtain ⟨spans, tiles⟩ := goes _ _ faultless rfl
              rw [whole]
              exact ⟨spans, tiles.blank takes⟩
          | token kind =>
              obtain ⟨taken, whole, rfl, takes⟩ := cuts (by intro fault same; cases same)
              rw [Position.pastAll_behind] at faultless ⊢
              obtain ⟨spans, tiles⟩ := goes _ _ faultless rfl
              rw [whole]
              exact ⟨_, tiles.cons takes⟩

/-! ### Spans -/

theorem Tiles.length (tiles : Tiles afterDot before rest tokens spans) :
    spans.length + 1 = tokens.length := by
  induction tiles with
  | stop => rfl
  | token _ _ _ _ ih => rw [List.length_cons, List.length_cons, ih]

/-- No span begins before the text that is tiled. -/
theorem Tiles.bytes_le (tiles : Tiles afterDot before rest tokens spans) :
    ∀ span ∈ spans, Position.bytes before ≤ span.start := by
  induction tiles with
  | stop => nofun
  | token _ _ _ _ ih =>
      simp only [Position.bytes_append] at ih ⊢
      refine List.forall_mem_cons.mpr ⟨Nat.le_add_right _ _, ?_⟩
      intro span member
      have later := ih span member
      omega

theorem Tiles.start_lt_stop (tiles : Tiles afterDot before rest tokens spans) :
    ∀ span ∈ spans, span.start < span.stop := by
  induction tiles with
  | stop => nofun
  | token _ spells _ _ ih =>
      refine List.forall_mem_cons.mpr ⟨?_, ih⟩
      rw [Position.bytes_append (_ ++ _)]
      exact Nat.lt_add_of_pos_right (Position.bytes_pos spells.ne_nil)

theorem Tiles.pairwise (tiles : Tiles afterDot before rest tokens spans) :
    spans.Pairwise fun first second => first.stop ≤ second.start := by
  induction tiles with
  | stop => exact .nil
  | token _ _ _ follow ih => exact .cons follow.bytes_le ih

/-- Right behind a dot there is no float. -/
theorem Tiles.not_float (tiles : Tiles afterDot before rest tokens spans) {first second : Token}
    (adjacent : [first, second] <:+: tokens) (dot : first.kind = .dot) :
    ∀ value, second.kind ≠ .float value := by
  induction tiles with
  | stop => exact absurd adjacent.length_le (Nat.not_succ_le_self 1)
  | token _ _ _ follow ih =>
      rcases List.infix_cons_iff.mp adjacent with front | inner
      · obtain ⟨rfl, next⟩ := List.cons_prefix_cons.mp front
        obtain ⟨others, rfl⟩ := next
        cases follow with
        | stop => nofun
        | token _ _ whole _ => exact whole (decide_eq_true dot)
      · exact ih inner

end Tiles

/-- Nothing of a text is lost: the tokens before the end have spans one behind the other, each
spells its token, and what stands between them is blank. -/
theorem Token.ofText_tiles {text : String} {tokens : List Token}
    (scanned : Token.ofText text = .ok tokens) :
    ∃ spans : List Span, spans.length + 1 = tokens.length ∧
      (∀ span ∈ spans, span.start < span.stop) ∧
      spans.Pairwise (fun first second => first.stop ≤ second.start) ∧
      Tiles false [] text.toList tokens spans ∧
      ∀ first second, [first, second] <:+: tokens → first.kind = .dot →
        ∀ value, second.kind ≠ .float value := by
  unfold Token.ofText at scanned
  dsimp only at scanned
  split at scanned
  next clean =>
    cases scanned
    obtain ⟨spans, tiles⟩ := Scan.run_tiles false [] text.toList (List.isEmpty_iff.mp clean)
    exact ⟨spans, tiles.length, tiles.start_lt_stop, tiles.pairwise, tiles,
      fun _ _ => tiles.not_float⟩
  next => cases scanned

/-- Whether a text has been scanned can be tested. -/
instance (scan : Except (List Fault) (List Token)) (tokens : List Token) :
    Decidable (scan = .ok tokens) :=
  match scan with
  | .ok other => decidable_of_iff (other = tokens) ⟨congrArg Except.ok, Except.ok.inj⟩
  | .error _ => isFalse (by intro same; cases same)

/-- Two steps into a list, a wide character and an escape in quotes, and comments of each kind. -/
theorem Token.ofText_tiles_steps :
    let text := "a.0.12/* b */ \"\u00e9\\n\" // c\n/*\n*/"
    let tokens : List Token := [⟨.ident "a", 1, 1⟩, ⟨.dot, 1, 2⟩, ⟨.int 0, 1, 3⟩, ⟨.dot, 1, 4⟩,
      ⟨.int 12, 1, 5⟩, ⟨.string "\u00e9\n", 1, 15⟩, ⟨.newline, 1, 26⟩, ⟨.newline, 2, 1⟩,
      ⟨.eof, 3, 3⟩]
    Token.ofText text = .ok tokens ∧ ∃ spans : List Span, spans.length = 8 ∧
      spans.Pairwise (fun first second => first.stop ≤ second.start) ∧
      Tiles false [] text.toList tokens spans := by
  intro text tokens
  have scanned : Token.ofText text = .ok tokens := by decide +kernel
  obtain ⟨spans, count, -, ordered, tiles, -⟩ := Token.ofText_tiles scanned
  exact ⟨scanned, spans, Nat.succ.inj count, ordered, tiles⟩

end ConfigLang
