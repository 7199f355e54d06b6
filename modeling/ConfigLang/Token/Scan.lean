import ConfigLang.Fault
/-!
Splitting a text into tokens. A fault never ends the scan: what follows it is scanned all the
same, so that every fault of a text is found at once.
-/

set_option autoImplicit false

namespace ConfigLang.Scan

/-- What the next characters of a text are. -/
inductive Lexeme where
  | blank
  | token (kind : Kind)
  | fault (fault : Fault)

/-- A lexeme, with the place and the characters that follow it. -/
structure Step where
  lexeme : Lexeme
  after : Position
  rest : List Char

namespace Step

/-- The lexeme takes these characters from the place on. -/
def taking (lexeme : Lexeme) (place : Position) (taken rest : List Char) : Step :=
  ⟨lexeme, place.pastAll taken, rest⟩

end Step

/-- The token of one character. -/
def single? : Char → Option Kind
  | '\n' => some .newline
  | '+' => some .plus
  | '-' => some .minus
  | '*' => some .star
  | '/' => some .slash
  | '%' => some .percent
  | '=' => some .assign
  | '!' => some .bang
  | '<' => some .less
  | '>' => some .greater
  | ':' => some .colon
  | ',' => some .comma
  | '.' => some .dot
  | '(' => some .leftParen
  | ')' => some .rightParen
  | '{' => some .leftBrace
  | '}' => some .rightBrace
  | '[' => some .leftBracket
  | ']' => some .rightBracket
  | _ => none

/-- The token of two characters. -/
def double? : Char → Char → Option Kind
  | '=', '=' => some .equal
  | '!', '=' => some .notEqual
  | '<', '=' => some .lessEqual
  | '>', '=' => some .greaterEqual
  | '&', '&' => some .and
  | '|', '|' => some .or
  | _, _ => none

/-- An operator or punctuation, the longer one if both fit. -/
def mark? (place : Position) (char : Char) (rest : List Char) : Option Step :=
  match rest with
  | second :: after =>
    match double? char second with
    | some kind => some (.taking (.token kind) place [char, second] after)
    | none => (single? char).map fun kind => .taking (.token kind) place [char] rest
  | [] => (single? char).map fun kind => .taking (.token kind) place [char] rest

/-- Characters that separate tokens and mean nothing. A line feed is a token. -/
def isBlank (char : Char) : Bool :=
  char = ' ' || char = '\t' || char = '\r'

def startsName (char : Char) : Bool :=
  char.isAlpha || char = '_'

/-- A name goes on over digits and dashes. -/
def continuesName (char : Char) : Bool :=
  char.isAlphanum || char = '_' || char = '-'

/-- The inside of a block comment with its end mark, and what follows. -/
def inside? : List Char → Option (List Char × List Char)
  | '*' :: '/' :: rest => some (['*', '/'], rest)
  | char :: rest => (inside? rest).map fun (inside, after) => (char :: inside, after)
  | [] => none

/-- A comment. One to the end of the line leaves the line feed, and one between marks counts as a
line feed at its start if there is one inside. -/
def comment? (place : Position) (char : Char) (rest : List Char) : Option Step :=
  let toLineEnd (mark text : List Char) : Step :=
    .taking .blank place (mark ++ text.takeWhile (· ≠ '\n')) (text.dropWhile (· ≠ '\n'))
  match char, rest with
  | '#', text => some (toLineEnd ['#'] text)
  | '/', '/' :: text => some (toLineEnd ['/', '/'] text)
  | '/', '*' :: text =>
    match inside? text with
    | some (inside, after) =>
      let lexeme := if '\n' ∈ inside then .token .newline else .blank
      some (.taking lexeme place ('/' :: '*' :: inside) after)
    | none => some (.taking (.fault ⟨place, .unterminatedComment⟩) place ('/' :: '*' :: text) [])
  | _, _ => none

/-- The character that a letter after a backslash stands for. -/
def unescape? : Char → Option Char
  | 'n' => some '\n'
  | 't' => some '\t'
  | 'r' => some '\r'
  | '\\' => some '\\'
  | '"' => some '"'
  | '$' => some '$'
  | _ => none

/-- The name that the message on an invalid escape gives to a character. An escape is one byte
long, so a longer character goes by the first byte of its encoding. -/
def escapeName (char : Char) : Char :=
  match String.utf8EncodeChar char with
  | byte :: _ => Char.ofNat byte.toNat
  | [] => char

/-- What was read after an opening quote: the contents, the faults inside in their order, and
where the text goes on. It is unterminated where a line feed or the end came first. -/
structure Quoted where
  terminated : Bool
  contents : List Char
  faults : List Fault
  after : Position
  rest : List Char

namespace Quoted

def cons (char : Char) (quoted : Quoted) : Quoted :=
  { quoted with contents := char :: quoted.contents }

def blame (fault : Fault) (quoted : Quoted) : Quoted :=
  { quoted with faults := fault :: quoted.faults }

/-- Only the first fault of a string is reported, and none of those inside if the string has no
end. -/
def lexeme (start : Position) (quoted : Quoted) : Lexeme :=
  if quoted.terminated then
    match quoted.faults with
    | [] => .token (.string (String.ofList quoted.contents))
    | fault :: _ => .fault fault
  else .fault ⟨start, .unterminatedString⟩

end Quoted

/-- Whether the two characters would open a template. -/
def opensTemplate (char : Char) (rest : List Char) : Bool :=
  (char = '$' || char = '%') && rest.head? = some '{'

/-- Reads a string after its opening quote. An escaped line feed does not end it. -/
def quoted : Position → List Char → Quoted
  | place, [] => ⟨false, [], [], place, []⟩
  | place, '\n' :: rest => ⟨false, [], [], place, '\n' :: rest⟩
  | place, '"' :: rest => ⟨true, [], [], place.past '"', rest⟩
  | place, ['\\'] => ⟨false, [], [], place.past '\\', []⟩
  | place, '\\' :: char :: rest =>
    match unescape? char with
    | some meant => (quoted ((place.past '\\').past char) rest).cons meant
    | none =>
      (quoted ((place.past '\\').past char) rest).blame
        ⟨place.past '\\', .invalidEscape (escapeName char)⟩
  | place, char :: rest =>
    if opensTemplate char rest then
      ((quoted (place.past char) rest).cons char).blame ⟨place, .template char⟩
    else (quoted (place.past char) rest).cons char

/-- The digits after a point, none if the text does not go on with a point and a digit. -/
def fraction (text : List Char) : List Char × List Char :=
  match text with
  | '.' :: inner =>
    if (inner.takeWhile Char.isDigit).isEmpty then ([], text)
    else (inner.takeWhile Char.isDigit, inner.dropWhile Char.isDigit)
  | _ => ([], text)

/-- An optional sign. -/
def sign (text : List Char) : List Char × List Char :=
  match text with
  | '+' :: inner => (['+'], inner)
  | '-' :: inner => (['-'], inner)
  | _ => ([], text)

/-- An exponent mark with an optional sign and its digits, nothing if there is no digit. -/
def power (text : List Char) : List Char × List Char :=
  match text with
  | mark :: inner =>
    let digits := (sign inner).2
    if (mark = 'e' ∨ mark = 'E') ∧ digits.takeWhile Char.isDigit ≠ [] then
      (mark :: ((sign inner).1 ++ digits.takeWhile Char.isDigit), digits.dropWhile Char.isDigit)
    else ([], text)
  | [] => ([], text)

/-- The token of a run of digits. -/
def integer (place : Position) (digits rest : List Char) : Step :=
  let value := Decimal.natural digits
  let lexeme :=
    if value < 0x8000000000000000 then .token (.int (Int64.ofNat value))
    else .fault ⟨place, .integerOutOfRange (String.ofList digits)⟩
  .taking lexeme place digits rest

/-- Reads a number. Right after a dot only digits are read, so that `list.0.1` has two steps. -/
def number (afterDot : Bool) (place : Position) (text : List Char) : Step :=
  let whole := text.takeWhile Char.isDigit
  let rest := text.dropWhile Char.isDigit
  if afterDot then integer place whole rest
  else
    let places := fraction rest
    let scale := power places.2
    if places.1.isEmpty && scale.1.isEmpty then integer place whole rest
    else
      let point := if places.1.isEmpty then [] else '.' :: places.1
      let value := Decimal.ofDigits whole places.1 ((Decimal.power? scale.1).getD 0)
      .taking (.token (.float value.nearest)) place (whole ++ point ++ scale.1) scale.2

/-- Reads a name. -/
def name (place : Position) (text : List Char) : Step :=
  let taken := text.takeWhile continuesName
  .taking (.token (.ident (String.ofList taken))) place taken (text.dropWhile continuesName)

/-- Reads the lexeme that starts with a character. A character that starts none is reported, and
is one column wide whatever its encoding. -/
def next (afterDot : Bool) (place : Position) (char : Char) (rest : List Char) : Step :=
  if isBlank char then .taking .blank place [char] rest
  else if char = '"' then
    let quoted := quoted (place.past '"') rest
    ⟨quoted.lexeme place, quoted.after, quoted.rest⟩
  else if char.isDigit then number afterDot place (char :: rest)
  else if startsName char then name place (char :: rest)
  else
    match comment? place char rest with
    | some step => step
    | none =>
      match mark? place char rest with
      | some step => step
      | none =>
        ⟨.fault ⟨place, .unexpectedCharacter char⟩, ⟨place.line, place.column + 1⟩, rest⟩

/-- Everything that a text consists of: its tokens, and the faults between them. -/
structure Result where
  tokens : List Token
  faults : List Fault

namespace Result

/-- Puts a lexeme in front. -/
def cons (place : Position) (lexeme : Lexeme) (result : Result) : Result :=
  match lexeme with
  | .blank => result
  | .token kind => { result with tokens := ⟨kind, place⟩ :: result.tokens }
  | .fault fault => { result with faults := fault :: result.faults }

end Result

namespace Lexeme

/-- Whether the last token is a dot after this lexeme. What is no token changes nothing. -/
def afterDot (lexeme : Lexeme) (before : Bool) : Bool :=
  match lexeme with
  | .token kind => kind = .dot
  | _ => before

end Lexeme

/-! ### A step never gives characters back -/

theorem length_dropWhile_le (test : Char → Bool) (chars : List Char) :
    (chars.dropWhile test).length ≤ chars.length :=
  (List.dropWhile_sublist test).length_le

theorem length_dropWhile_cons (test : Char → Bool) (char : Char) (rest : List Char)
    (holds : test char = true) :
    ((char :: rest).dropWhile test).length ≤ rest.length := by
  rw [List.dropWhile_cons_of_pos holds]
  exact length_dropWhile_le test rest

theorem length_inside?_le {text inside after : List Char} (found : inside? text = some (inside, after)) :
    after.length ≤ text.length := by
  fun_induction inside? text generalizing inside after with
  | case1 rest =>
      cases found
      simp only [List.length_cons]
      omega
  | case2 char rest _ ih =>
      obtain ⟨⟨inner, last⟩, inner_found, same⟩ := Option.map_eq_some_iff.mp found
      cases same
      have shorter := ih inner_found
      simp only [List.length_cons]
      omega
  | case3 => cases found

@[simp] theorem cons_rest (char : Char) (text : Quoted) : (text.cons char).rest = text.rest := rfl

@[simp] theorem blame_rest (fault : Fault) (text : Quoted) : (text.blame fault).rest = text.rest :=
  rfl

theorem length_quoted_le (place : Position) (text : List Char) :
    (quoted place text).rest.length ≤ text.length := by
  fun_induction quoted place text <;> simp_all <;> omega

theorem length_fraction_le (text : List Char) : (fraction text).2.length ≤ text.length := by
  unfold fraction
  split
  next inner =>
    split
    · exact Nat.le_refl _
    · exact Nat.le_succ_of_le (length_dropWhile_le _ inner)
  next => exact Nat.le_refl _

theorem length_sign_le (text : List Char) : (sign text).2.length ≤ text.length := by
  unfold sign
  split
  · exact Nat.le_succ _
  · exact Nat.le_succ _
  · exact Nat.le_refl _

theorem length_power_le (text : List Char) : (power text).2.length ≤ text.length := by
  unfold power
  split
  next mark inner =>
    dsimp only
    split
    · exact Nat.le_succ_of_le
        (Nat.le_trans (length_dropWhile_le _ (sign inner).2) (length_sign_le inner))
    · exact Nat.le_refl _
  next => exact Nat.le_refl _

theorem length_number_le (afterDot : Bool) (place : Position) (char : Char) (rest : List Char)
    (digit : char.isDigit = true) :
    (number afterDot place (char :: rest)).rest.length ≤ rest.length := by
  have whole := length_dropWhile_cons Char.isDigit char rest digit
  have places := length_fraction_le ((char :: rest).dropWhile Char.isDigit)
  have scale := length_power_le (fraction ((char :: rest).dropWhile Char.isDigit)).2
  unfold number
  split
  · exact whole
  · dsimp only
    split
    · exact whole
    · exact Nat.le_trans scale (Nat.le_trans places whole)

theorem length_comment?_le {place : Position} {char : Char} {rest : List Char} {step : Step}
    (found : comment? place char rest = some step) : step.rest.length ≤ rest.length := by
  unfold comment? at found
  split at found
  · cases found
    exact length_dropWhile_le _ _
  · cases found
    exact Nat.le_succ_of_le (length_dropWhile_le _ _)
  · split at found
    next inner =>
      cases found
      exact Nat.le_succ_of_le (length_inside?_le inner)
    next =>
      cases found
      exact Nat.zero_le _
  · cases found

theorem length_mark?_le {place : Position} {char : Char} {rest : List Char} {step : Step}
    (found : mark? place char rest = some step) : step.rest.length ≤ rest.length := by
  unfold mark? at found
  split at found
  · split at found
    · cases found
      exact Nat.le_succ _
    · obtain ⟨kind, _, same⟩ := Option.map_eq_some_iff.mp found
      cases same
      exact Nat.le_refl _
  · obtain ⟨kind, _, same⟩ := Option.map_eq_some_iff.mp found
    cases same
    exact Nat.le_refl _

theorem continuesName_of_startsName {char : Char} (starts : startsName char = true) :
    continuesName char = true := by
  simp only [startsName, continuesName, Char.isAlphanum, Bool.or_eq_true] at *
  rcases starts with alpha | underscore
  · exact Or.inl (Or.inl (Or.inl alpha))
  · exact Or.inl (Or.inr underscore)

theorem length_next_le (afterDot : Bool) (place : Position) (char : Char) (rest : List Char) :
    (next afterDot place char rest).rest.length ≤ rest.length := by
  unfold next
  split
  · exact Nat.le_refl _
  · split
    · exact length_quoted_le _ _
    · split
      next digit => exact length_number_le afterDot place char rest digit
      next =>
        split
        next starts =>
          exact length_dropWhile_cons _ char rest (continuesName_of_startsName starts)
        next =>
          split
          next found => exact length_comment?_le found
          next =>
            split
            next found => exact length_mark?_le found
            next => exact Nat.le_refl _

/-- Scans a text from a place on. The end of the text is the last token. -/
def run (afterDot : Bool) (place : Position) : List Char → Result
  | [] => ⟨[⟨.eof, place⟩], []⟩
  | char :: rest =>
    let step := next afterDot place char rest
    (run (step.lexeme.afterDot afterDot) step.after step.rest).cons place step.lexeme
termination_by text => text.length
decreasing_by
  have shorter := length_next_le afterDot place char rest
  simp only [List.length_cons]
  omega

end ConfigLang.Scan

namespace ConfigLang.Token

/-- The tokens of a text, or all of its faults. -/
def ofText (text : String) : Except (List Fault) (List Token) :=
  let result := Scan.run false .start text.toList
  if result.faults.isEmpty then .ok result.tokens else .error result.faults

end ConfigLang.Token
