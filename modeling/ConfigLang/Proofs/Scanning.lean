import ConfigLang.Proofs.Source
import ConfigLang.Token.Scan
/-!
Scanning one piece of a text after the other. What a piece is scanned as depends on what follows
it, so that the rest of the text is part of every statement here.
-/

set_option autoImplicit false

namespace ConfigLang.Scan

namespace Result

/-- The result with tokens in front of it. -/
def prepend (tokens : List Token) (result : Result) : Result :=
  ⟨tokens ++ result.tokens, result.faults⟩

@[simp] theorem prepend_prepend (first second : List Token) (result : Result) :
    (result.prepend second).prepend first = result.prepend (first ++ second) := by
  simp only [prepend, List.append_assoc]

end Result

/-- A text is scanned as tokens of a phrase if the rest follows it, wherever it begins. -/
def Gives (text : String) (Phrase : List Token → Prop) (rest : List Char) : Prop :=
  ∀ flag place, ∃ after follow tokens, Phrase tokens ∧
    run flag place (text.toList ++ rest) = (run after follow rest).prepend tokens

/-- Tokens of one phrase and then tokens of another. -/
def Then (First Second : List Token → Prop) (tokens : List Token) : Prop :=
  ∃ first second, tokens = first ++ second ∧ First first ∧ Second second

/-- A single token of a kind. -/
def Only (kind : Kind) (tokens : List Token) : Prop :=
  ∃ token, tokens = [token] ∧ token.kind = kind

/-- No token at all. -/
def Nothing (tokens : List Token) : Prop :=
  tokens = []

section Pieces

variable {text : String} {rest : List Char} {kind : Kind}

theorem Gives.imp {First Second : List Token → Prop} (gives : Gives text First rest)
    (weaker : ∀ tokens, First tokens → Second tokens) : Gives text Second rest := by
  intro flag place
  obtain ⟨after, follow, tokens, phrase, scans⟩ := gives flag place
  exact ⟨after, follow, tokens, weaker tokens phrase, scans⟩

theorem Gives.append {first second : String} {First Second : List Token → Prop}
    (before : Gives first First (second.toList ++ rest)) (behind : Gives second Second rest) :
    Gives (first ++ second) (Then First Second) rest := by
  intro flag place
  obtain ⟨middle, between, tokens, firstPhrase, scansFirst⟩ := before flag place
  obtain ⟨after, follow, others, secondPhrase, scansSecond⟩ := behind middle between
  refine ⟨after, follow, tokens ++ others, ⟨_, _, rfl, firstPhrase, secondPhrase⟩, ?_⟩
  rw [String.toList_append, List.append_assoc, scansFirst, scansSecond, Result.prepend_prepend]

theorem gives_nothing : Gives "" Nothing rest :=
  fun flag place => ⟨flag, place, [], rfl, rfl⟩

theorem gives_of_next {char : Char} {chars : List Char} (whole : text.toList = char :: chars)
    (reads : ∀ flag place, ∃ after,
      next flag place char (chars ++ rest) = ⟨.token kind, after, rest⟩) :
    Gives text (Only kind) rest := by
  intro flag place
  obtain ⟨after, read⟩ := reads flag place
  refine ⟨(Lexeme.token kind).afterDot flag, after, [⟨kind, place⟩], ⟨_, rfl, rfl⟩, ?_⟩
  rw [whole, List.cons_append, run, read]
  rfl

/-! ### Blanks and marks -/

theorem gives_space : Gives " " Nothing rest := by
  intro flag place
  refine ⟨flag, place.past ' ', [], rfl, ?_⟩
  change run flag place (' ' :: rest) = _
  rw [run]
  rfl

/-- A mark begins no other lexeme. -/
theorem single?_outside {char : Char} (single : single? char = some kind) :
    isBlank char = false ∧ char ≠ '"' ∧ char.isDigit = false ∧ startsName char = false ∧
      char ≠ '#' := by
  unfold single? at single
  split at single
  case h_20 => cases single
  all_goals decide

/-- A mark of one character that does not begin a longer one or a comment. -/
theorem next_mark (flag : Bool) (place : Position) {char : Char}
    (single : single? char = some kind)
    (apart : ∀ second ∈ rest.head?,
      double? char second = none ∧ (char = '/' → second ≠ '/' ∧ second ≠ '*')) :
    next flag place char rest = ⟨.token kind, place.past char, rest⟩ := by
  obtain ⟨unblank, unquoted, undigit, unnamed, uncommented⟩ := single?_outside single
  have comment : comment? place char rest = none := by
    unfold comment?
    split
    · exact absurd rfl uncommented
    · exact absurd rfl ((apart _ rfl).2 rfl).1
    · exact absurd rfl ((apart _ rfl).2 rfl).2
    · rfl
  have mark : mark? place char rest = some (.taking (.token kind) place [char] rest) := by
    cases rest with
    | nil => rw [mark?, single]; rfl
    | cons second others => rw [mark?, (apart second rfl).1, single]; rfl
  rw [next, unblank, if_neg Bool.false_ne_true, if_neg unquoted, undigit, if_neg Bool.false_ne_true,
    unnamed, if_neg Bool.false_ne_true, comment, mark]
  rfl

theorem gives_mark {char : Char} (whole : text.toList = [char])
    (single : single? char = some kind)
    (apart : ∀ second ∈ rest.head?,
      double? char second = none ∧ (char = '/' → second ≠ '/' ∧ second ≠ '*')) :
    Gives text (Only kind) rest := by
  apply gives_of_next whole
  intro flag place
  exact ⟨_, next_mark flag place single apart⟩

theorem gives_double {first second : Char} (whole : text.toList = [first, second])
    (double : double? first second = some kind) : Gives text (Only kind) rest := by
  apply gives_of_next whole
  intro flag place
  refine ⟨place.pastAll [first, second], ?_⟩
  unfold double? at double
  split at double
  case h_7 => cases double
  all_goals
    cases double
    rfl

/-! ### Names and numbers -/

/-- No name and no number goes on with the rest. -/
def Breaks (rest : List Char) : Prop :=
  ∀ char ∈ rest.head?, continuesName char = false ∧ char ≠ '.'

/-- No name goes on with the rest. -/
def EndsName (rest : List Char) : Prop :=
  ∀ char ∈ rest.head?, continuesName char = false

theorem Breaks.endsName (breaks : Breaks rest) : EndsName rest :=
  fun char first => (breaks char first).1

/-- A digit goes on with a name. -/
theorem isDigit_of_continuesName {char : Char} (outside : continuesName char = false) :
    char.isDigit = false := by
  simp only [continuesName, Char.isAlphanum, Bool.or_eq_false_iff] at outside
  exact outside.1.1.2

/-- A run of characters ends where one comes that does not pass the test. -/
theorem takeWhile_boundary {test : Char → Bool} {chars : List Char}
    (inside : ∀ char ∈ chars, test char = true) (ends : ∀ char ∈ rest.head?, test char = false) :
    (chars ++ rest).takeWhile test = chars ∧ (chars ++ rest).dropWhile test = rest := by
  rw [List.takeWhile_append_of_pos inside, List.dropWhile_append_of_pos inside]
  cases rest with
  | nil => exact ⟨List.append_nil chars, rfl⟩
  | cons char rest =>
      have outside : ¬test char = true := Bool.eq_false_iff.mp (ends char rfl)
      rw [List.takeWhile_cons_of_neg outside, List.dropWhile_cons_of_neg outside, List.append_nil]
      exact ⟨rfl, rfl⟩

/-- A character that passes a test is no blank and no quote if none of those passes it. -/
theorem outside_of_test {test : Char → Bool} {char : Char} (passes : test char = true)
    (fails : (test ' ' || test '\t' || test '\r' || test '"') = false) :
    isBlank char = false ∧ char ≠ '"' := by
  simp only [Bool.or_eq_false_iff] at fails
  obtain ⟨⟨⟨space, tab⟩, feed⟩, quote⟩ := fails
  have differs : ∀ other, test other = false → char ≠ other := by
    rintro other fails rfl
    rw [fails] at passes
    cases passes
  simp [isBlank, differs _ space, differs _ tab, differs _ feed, differs _ quote]

theorem startsName_outside {char : Char} (starts : startsName char = true) :
    isBlank char = false ∧ char ≠ '"' ∧ char.isDigit = false := by
  obtain ⟨unblank, unquoted⟩ := outside_of_test starts rfl
  refine ⟨unblank, unquoted, ?_⟩
  apply Bool.eq_false_iff.mpr
  intro digit
  have high : char.val ≤ '9'.val := of_decide_eq_true (Bool.and_eq_true_iff.mp digit).2
  rcases Bool.or_eq_true_iff.mp starts with letter | underscore
  · rcases Bool.or_eq_true_iff.mp letter with upper | lower
    · have low : 'A'.val ≤ char.val := (of_decide_eq_true upper).1
      exact absurd (UInt32.le_trans low high) (by decide)
    · have low : 'a'.val ≤ char.val := of_decide_eq_true (Bool.and_eq_true_iff.mp lower).1
      exact absurd (UInt32.le_trans low high) (by decide)
  · rw [of_decide_eq_true underscore] at high
    exact absurd high (by decide)

theorem gives_name (named : Source.isName text) (ends : EndsName rest) :
    Gives text (Only (.ident text)) rest := by
  unfold Source.isName at named
  split at named
  next => cases named
  next first others whole =>
    obtain ⟨begins, goes⟩ := Bool.and_eq_true_iff.mp named
    have starts : startsName first = true := begins
    have inside : ∀ char ∈ first :: others, continuesName char = true :=
      List.forall_mem_cons.mpr ⟨continuesName_of_startsName starts, List.all_eq_true.mp goes⟩
    apply gives_of_next whole
    intro flag place
    obtain ⟨taken, left⟩ := takeWhile_boundary inside ends
    obtain ⟨unblank, unquoted, undigit⟩ := startsName_outside starts
    refine ⟨place.pastAll (first :: others), ?_⟩
    rw [next, unblank, if_neg Bool.false_ne_true, if_neg unquoted, undigit,
      if_neg Bool.false_ne_true, if_pos starts, name, ← List.cons_append, taken, left, ← whole,
      String.ofList_toList]
    rfl

theorem natural_toDigits (number : Nat) : Decimal.natural (Nat.toDigits 10 number) = number := by
  have value : Nat.ofDigitChars 10 (Nat.toDigits 10 number) 0 = number :=
    Nat.ofDigitChars_ten_toDigits
  rw [Nat.ofDigitChars_eq_foldl] at value
  rw [Decimal.natural]
  simpa only [Nat.mul_comm] using value

theorem takeWhile_digits {digits : List Char} (inside : ∀ char ∈ digits, char.isDigit = true)
    (ends : EndsName rest) : (digits ++ rest).takeWhile Char.isDigit = digits ∧
      (digits ++ rest).dropWhile Char.isDigit = rest :=
  takeWhile_boundary inside fun char first => isDigit_of_continuesName (ends char first)

/-- Digits right after a dot are an integer, also if a point follows them. -/
theorem number_behind_dot (place : Position) {digits : List Char}
    (inside : ∀ char ∈ digits, char.isDigit = true) (ends : EndsName rest) :
    number true place (digits ++ rest) = integer place digits rest := by
  obtain ⟨taken, left⟩ := takeWhile_digits inside ends
  rw [number, if_pos rfl, taken, left]

/-- Digits that are not followed by a point or an exponent are an integer. -/
theorem number_of_digits (flag : Bool) (place : Position) {digits : List Char}
    (inside : ∀ char ∈ digits, char.isDigit = true) (breaks : Breaks rest) :
    number flag place (digits ++ rest) = integer place digits rest := by
  obtain ⟨taken, left⟩ := takeWhile_digits inside breaks.endsName
  have fraction : fraction rest = ([], rest) := by
    unfold fraction
    split
    · exact absurd rfl (breaks _ rfl).2
    · rfl
  have power : power rest = ([], rest) := by
    unfold power
    split
    next mark inner =>
      have unmarked : ¬(mark = 'e' ∨ mark = 'E') := by
        rintro (rfl | rfl)
        · exact absurd (breaks _ rfl).1 (by decide)
        · exact absurd (breaks _ rfl).1 (by decide)
      exact if_neg fun both => unmarked both.1
    next => rfl
  unfold number
  simp only [taken, left, fraction, power, List.isEmpty_nil, Bool.and_self, ↓reduceIte, ite_self]

theorem next_number {char : Char} (digit : char.isDigit = true) (flag : Bool) (place : Position)
    (rest : List Char) : next flag place char rest = number flag place (char :: rest) := by
  obtain ⟨unblank, unquoted⟩ := outside_of_test digit rfl
  rw [next, unblank, if_neg Bool.false_ne_true, if_neg unquoted, if_pos digit]

/-- Digits are the token of their value if a word holds it. -/
theorem integer_of_value {digits : List Char} {value : Int64}
    (same : value.toInt = Decimal.natural digits) (place : Position) (rest : List Char) :
    integer place digits rest = .taking (.token (.int value)) place digits rest := by
  have small : Decimal.natural digits < 0x8000000000000000 := by
    have bound := value.toInt_lt
    omega
  have word : Int64.ofNat (Decimal.natural digits) = value := by
    rw [← Int64.ofInt_eq_ofNat, ← same, Int64.ofInt_toInt]
  simp only [integer, small, ↓reduceIte, word]

theorem gives_digits {value : Int64} (nonempty : text.toList ≠ [])
    (inside : ∀ char ∈ text.toList, char.isDigit = true)
    (same : value.toInt = Decimal.natural text.toList) (breaks : Breaks rest) :
    Gives text (Only (.int value)) rest := by
  obtain ⟨first, others, whole⟩ := List.exists_cons_of_ne_nil nonempty
  apply gives_of_next whole
  intro flag place
  rw [whole] at inside same
  refine ⟨place.pastAll (first :: others), ?_⟩
  rw [next_number (inside first List.mem_cons_self), ← List.cons_append,
    number_of_digits flag place inside breaks, integer_of_value same]
  rfl

theorem gives_int {value : Int64} (unsigned : 0 ≤ value.toInt) (breaks : Breaks rest) :
    Gives (Integer.text value) (Only (.int value)) rest := by
  obtain ⟨number, same⟩ := Int.eq_ofNat_of_zero_le unsigned
  have whole : (Integer.text value).toList = Nat.toDigits 10 number := by
    rw [Integer.text, same]
    exact Nat.toList_repr
  apply gives_digits
  · rw [whole]
    exact Nat.toDigits_ne_nil
  · rw [whole]
    intro char member
    exact Nat.isDigit_of_mem_toDigits (by decide) (by decide) member
  · rw [whole, natural_toDigits, same]
  · exact breaks

end Pieces

end ConfigLang.Scan
