import ConfigLang.Proofs.LineFaults
import ConfigLang.Proofs.Literals
/-!
Where tokens begin. What is read up to the beginning of a token does not depend on what stands there,
so that blanks and comments may be put before any token.
-/

set_option autoImplicit false

namespace ConfigLang.Scan

open Spelling

/-! ### Reading only what is taken -/

section Alone

variable {place : Position} {text after left : List Char}

/-- Where all of a text is left, nothing has been taken of it. -/
theorem nothing_taken {taken : List Char} (whole : after = taken ++ (left ++ after)) :
    taken = [] ∧ left = [] := by
  rw [← List.append_assoc] at whole
  exact List.append_eq_nil_iff.mp (List.append_left_eq_self.mp whole.symm)

theorem takeWhile_alone {test : Char → Bool}
    (ends : (text ++ after).dropWhile test = left ++ after) :
    text.takeWhile test = (text ++ after).takeWhile test ∧ text.dropWhile test = left := by
  induction text with
  | nil =>
      have whole : after = after.takeWhile test ++ after.dropWhile test :=
        List.takeWhile_append_dropWhile.symm
      rw [List.nil_append] at ends
      rw [ends] at whole
      obtain ⟨none, empty⟩ := nothing_taken whole
      exact ⟨none.symm, empty.symm⟩
  | cons char text ih =>
      rw [List.cons_append] at ends ⊢
      cases passes : test char with
      | true =>
          rw [List.dropWhile_cons_of_pos passes] at ends ⊢
          rw [List.takeWhile_cons_of_pos passes, List.takeWhile_cons_of_pos passes, (ih ends).1]
          exact ⟨rfl, (ih ends).2⟩
      | false =>
          have fails : ¬test char = true := by simp [passes]
          rw [List.dropWhile_cons_of_neg fails] at ends ⊢
          rw [List.takeWhile_cons_of_neg fails, List.takeWhile_cons_of_neg fails]
          exact ⟨rfl, List.append_cancel_right (by simpa using ends)⟩

/-- What does not begin in a longer text does not begin in its front. -/
theorem takeWhile_eq_nil_of_append {test : Char → Bool}
    (none : (text ++ after).takeWhile test = []) : text.takeWhile test = [] := by
  cases text with
  | nil => rfl
  | cons char text =>
      cases passes : test char with
      | true => simp [passes] at none
      | false => simp [passes]

theorem fraction_point (inner : List Char) : fraction ('.' :: inner) =
    if (inner.takeWhile Char.isDigit).isEmpty then ([], '.' :: inner)
    else (inner.takeWhile Char.isDigit, inner.dropWhile Char.isDigit) := rfl

theorem fraction_alone {digits : List Char}
    (read : fraction (text ++ after) = (digits, left ++ after)) :
    fraction text = (digits, left) := by
  cases text with
  | nil =>
      have whole := (fraction_spells after).2
      rw [List.nil_append] at read
      rw [read] at whole
      obtain ⟨none, empty⟩ := nothing_taken whole
      cases digits with
      | nil => rw [empty]; rfl
      | cons => cases none
  | cons char inner =>
      by_cases point : char = '.'
      · subst point
        rw [List.cons_append, fraction_point] at read
        rw [fraction_point]
        split at read
        next none =>
          obtain ⟨rfl, rest⟩ := Prod.mk.inj read
          rw [takeWhile_eq_nil_of_append (List.isEmpty_iff.mp none), if_pos List.isEmpty_nil]
          exact congrArg (Prod.mk []) (List.append_cancel_right rest)
        next some =>
          obtain ⟨taken, rest⟩ := Prod.mk.inj read
          obtain ⟨same, left⟩ := takeWhile_alone rest
          rw [same, if_neg some, taken, left]
      · have pointless : ∀ inner, fraction (char :: inner) = ([], char :: inner) := by
          intro inner
          simp [fraction, point]
        rw [List.cons_append, pointless] at read
        obtain ⟨rfl, rest⟩ := Prod.mk.inj read
        rw [pointless]
        exact congrArg (Prod.mk []) (List.append_cancel_right rest)

theorem sign_cons (char : Char) (text after : List Char) :
    sign (char :: text ++ after) = ((sign (char :: text)).1, (sign (char :: text)).2 ++ after) := by
  by_cases plus : char = '+'
  · subst plus
    rfl
  by_cases minus : char = '-'
  · subst minus
    rfl
  simp [sign, plus, minus]

theorem power_alone {scale : List Char}
    (read : power (text ++ after) = (scale, left ++ after)) : power text = (scale, left) := by
  have spent : ∀ {text : List Char}, power (text ++ after) = (scale, left ++ after) →
      text ++ after = scale ++ (left ++ after) := by
    intro text read
    have whole := (power_spells (text ++ after)).2
    rwa [read] at whole
  cases text with
  | nil =>
      obtain ⟨rfl, rfl⟩ := nothing_taken (spent read)
      rfl
  | cons mark inner =>
      have whole := spent read
      rw [List.cons_append, power] at read
      split at read
      next both =>
        obtain ⟨rfl, rest⟩ := Prod.mk.inj read
        cases inner with
        | nil =>
            -- the mark is taken, and so is something of what follows the text
            have short := congrArg List.length whole
            have some := List.length_pos_iff.mpr both.2
            simp only [List.nil_append, List.cons_append, List.length_cons, List.length_append]
              at short some
            omega
        | cons second inner =>
            rw [sign_cons] at both rest ⊢
            obtain ⟨same, left⟩ := takeWhile_alone rest
            rw [power, if_pos ⟨both.1, same ▸ both.2⟩, same, left]
      next either =>
        obtain ⟨rfl, rest⟩ := Prod.mk.inj read
        have fails : ¬((mark = 'e' ∨ mark = 'E') ∧
            (sign inner).2.takeWhile Char.isDigit ≠ []) := by
          rintro ⟨marks, some⟩
          cases inner with
          | nil => exact some rfl
          | cons second inner =>
              rw [sign_cons] at either
              exact either ⟨marks, fun none => some (takeWhile_eq_nil_of_append none)⟩
        rw [power, if_neg fails]
        exact congrArg (Prod.mk []) (List.append_cancel_right rest)

theorem fraction_none (none : (fraction text).1.isEmpty = true) : fraction text = ([], text) := by
  have whole := (fraction_spells text).2
  rw [if_pos none, List.nil_append] at whole
  exact Prod.ext (List.isEmpty_iff.mp none) whole.symm

theorem power_none (none : (power text).1.isEmpty = true) : power text = ([], text) := by
  have whole := (power_spells text).2
  rw [List.isEmpty_iff.mp none, List.nil_append] at whole
  exact Prod.ext (List.isEmpty_iff.mp none) whole.symm

/-- The token of digits is the same wherever they stand. -/
theorem integer_elsewhere {digits rest : List Char} {lexeme : Lexeme} {stop : Position}
    (clean : ∀ fault, lexeme ≠ .fault fault)
    (read : integer place digits rest = ⟨lexeme, stop, rest⟩) (other : Position)
    (less : List Char) : ∃ stop, integer other digits less = ⟨lexeme, stop, less⟩ := by
  unfold integer at read ⊢
  by_cases small : Decimal.natural digits < 0x8000000000000000
  · simp only [small, ↓reduceIte] at read ⊢
    cases read
    exact ⟨_, rfl⟩
  · simp only [small, ↓reduceIte] at read
    cases read
    exact absurd rfl (clean _)

theorem number_alone {flag : Bool} {lexeme : Lexeme} {stop : Position}
    (clean : ∀ fault, lexeme ≠ .fault fault)
    (read : number flag place (text ++ after) = ⟨lexeme, stop, left ++ after⟩)
    (other : Position) : ∃ stop, number flag other text = ⟨lexeme, stop, left⟩ := by
  have goes : ∀ {digits rest : List Char}, integer place digits rest = ⟨lexeme, stop, left ++ after⟩ →
      rest = left ++ after := fun read => congrArg Step.rest read
  unfold number at read ⊢
  split at read
  next dotted =>
    have ends := goes read
    obtain ⟨same, rest⟩ := takeWhile_alone ends
    rw [ends] at read
    rw [if_pos dotted, same, rest]
    exact integer_elsewhere clean read other left
  next undotted =>
    rw [if_neg undotted]
    dsimp only at read ⊢
    split at read
    next bare =>
      have ends := goes read
      obtain ⟨same, rest⟩ := takeWhile_alone ends
      rw [ends] at read bare
      obtain ⟨none, unscaled⟩ := Bool.and_eq_true_iff.mp bare
      rw [fraction_none none] at unscaled
      rw [same, rest, fraction_alone (fraction_none none), power_alone (power_none unscaled),
        if_pos (by rfl)]
      exact integer_elsewhere clean read other left
    next marked =>
      -- the fraction and the exponent are taken before what is left
      have ends : (power (fraction ((text ++ after).dropWhile Char.isDigit)).2).2 = left ++ after :=
        congrArg Step.rest read
      have scaled := (power_spells (fraction ((text ++ after).dropWhile Char.isDigit)).2).2
      have fractional := (fraction_spells ((text ++ after).dropWhile Char.isDigit)).2
      rw [ends, ← List.append_assoc] at scaled
      rw [scaled, ← List.append_assoc] at fractional
      obtain ⟨same, rest⟩ := takeWhile_alone fractional
      have places := @fraction_alone (text.dropWhile Char.isDigit) after _ _
        ((congrArg fraction (by rw [rest, ← fractional])).trans (Prod.ext rfl scaled))
      have scale := @power_alone _ after left _
        ((congrArg power scaled.symm).trans (Prod.ext rfl ends))
      have lexemes : Lexeme.token _ = lexeme := congrArg Step.lexeme read
      rw [same, places, scale, if_neg marked, ← lexemes]
      exact ⟨_, rfl⟩

/-- An end mark that a comment has within a longer text is found in its front as well. -/
theorem inside?_of_isComment {body : List Char} (closed : IsComment body) (rest : List Char) :
    inside? (body ++ '*' :: '/' :: rest) = some (body ++ ['*', '/'], rest) := by
  induction body with
  | nil => rfl
  | cons char body ih =>
      have inner : IsComment body := fun ends => closed (List.infix_cons ends)
      rw [List.cons_append, inside?, ih inner]
      · rfl
      · intro others star slash
        -- a star and a slash would end the comment here
        cases body with
        | nil => cases slash
        | cons second body =>
            obtain ⟨rfl, -⟩ := List.cons.inj slash
            subst star
            exact closed ⟨[], body ++ ['*'], rfl⟩

theorem comment?_alone {char : Char} {lexeme : Lexeme} {stop : Position}
    (clean : ∀ fault, lexeme ≠ .fault fault)
    (read : comment? place char (text ++ after) = some ⟨lexeme, stop, left ++ after⟩)
    (other : Position) : ∃ stop, comment? other char text = some ⟨lexeme, stop, left⟩ := by
  by_cases hash : char = '#'
  · subst hash
    obtain ⟨lexemes, -, rest⟩ := Step.mk.inj (Option.some.inj read)
    obtain ⟨-, left⟩ := takeWhile_alone rest
    simp only [comment?, left, ← lexemes]
    exact ⟨_, rfl⟩
  by_cases slash : char = '/'
  · subst slash
    cases text with
    | nil =>
        -- a mark that goes on behind the text takes some of what is there
        cases after with
        | nil => cases read
        | cons second after =>
            rw [List.nil_append] at read
            by_cases line : second = '/'
            · subst line
              have rest := (Step.mk.inj (Option.some.inj read)).2.2
              have short := length_dropWhile_le (· ≠ '\n') after
              rw [rest, List.length_append, List.length_cons] at short
              omega
            by_cases block : second = '*'
            · subst block
              cases found : inside? after with
              | none =>
                  simp only [comment?, found] at read
                  exact absurd (Step.mk.inj (Option.some.inj read)).1.symm (clean _)
              | some pair =>
                  simp only [comment?, found] at read
                  have rest := (Step.mk.inj (Option.some.inj read)).2.2
                  have short := length_inside?_le found
                  rw [rest, List.length_append, List.length_cons] at short
                  omega
            · simp [comment?, line, block] at read
    | cons second text =>
        by_cases line : second = '/'
        · subst line
          obtain ⟨lexemes, -, rest⟩ := Step.mk.inj (Option.some.inj read)
          obtain ⟨-, left⟩ := takeWhile_alone rest
          simp only [comment?, left, ← lexemes]
          exact ⟨_, rfl⟩
        by_cases block : second = '*'
        · subst block
          cases found : inside? (text ++ after) with
          | none =>
              simp only [List.cons_append, comment?, found] at read
              exact absurd (Step.mk.inj (Option.some.inj read)).1.symm (clean _)
          | some pair =>
              obtain ⟨inside, behind⟩ := pair
              simp only [List.cons_append, comment?, found] at read
              obtain ⟨lexemes, -, rfl⟩ := Step.mk.inj (Option.some.inj read)
              obtain ⟨body, rfl, whole, closed⟩ := inside?_isComment found
              rw [← List.append_assoc] at whole
              have front := List.append_cancel_right whole
              rw [List.append_assoc] at front
              rw [front, comment?, List.cons_append, List.cons_append, List.nil_append,
                inside?_of_isComment closed]
              exact ⟨_, congrArg some (congrArg (Step.mk · _ left) lexemes)⟩
        · simp [comment?, line, block] at read
  · simp [comment?, slash] at read

theorem comment?_none {char : Char} (none : comment? place char (text ++ after) = none)
    (other : Position) : comment? other char text = .none := by
  by_cases hash : char = '#'
  · subst hash
    cases none
  by_cases slash : char = '/'
  · subst slash
    cases text with
    | nil => rfl
    | cons second text =>
        by_cases line : second = '/'
        · subst line
          cases none
        by_cases block : second = '*'
        · subst block
          cases found : inside? (text ++ after) with
          | none | some => simp [comment?, found] at none
        · simp [comment?, line, block]
  · simp [comment?, slash]

theorem mark?_alone {char : Char} {lexeme : Lexeme} {stop : Position}
    (read : mark? place char (text ++ after) = some ⟨lexeme, stop, left ++ after⟩)
    (other : Position) : ∃ stop, mark? other char text = some ⟨lexeme, stop, left⟩ := by
  have single : ∀ {text : List Char}, (single? char).map (fun kind =>
      Step.taking (.token kind) place [char] (text ++ after)) =
        some ⟨lexeme, stop, left ++ after⟩ → ∃ stop, (single? char).map (fun kind =>
          Step.taking (.token kind) other [char] text) = some ⟨lexeme, stop, left⟩ := by
    intro text read
    obtain ⟨kind, is, made⟩ := Option.map_eq_some_iff.mp read
    obtain ⟨rfl, -, rest⟩ := Step.mk.inj made
    rw [is, List.append_cancel_right rest]
    exact ⟨_, rfl⟩
  cases text with
  | nil =>
      cases after with
      | nil => exact single read
      | cons second after =>
          rw [List.nil_append, mark?] at read
          split at read
          · have rest := (Step.mk.inj (Option.some.inj read)).2.2
            have short := congrArg List.length rest
            rw [List.length_append, List.length_cons] at short
            omega
          · exact single read
  | cons second text =>
      rw [List.cons_append, mark?] at read
      rw [mark?]
      split at read
      · obtain ⟨lexemes, -, rest⟩ := Step.mk.inj (Option.some.inj read)
        rw [← lexemes, List.append_cancel_right rest]
        exact ⟨_, rfl⟩
      · exact single read

end Alone

/-- Wherever the text begins, this lexeme is read first, and this rest is left. -/
def Reads (afterDot : Bool) (char : Char) (text : List Char) (lexeme : Lexeme) (rest : List Char) :
    Prop :=
  ∀ place, ∃ after, next afterDot place char text = ⟨lexeme, after, rest⟩

/-- What is read up to some place in a text is read of the part before that place alone. -/
theorem reads_of_next {afterDot : Bool} {place stop : Position} {char : Char}
    {text after left : List Char} {lexeme : Lexeme} (clean : ∀ fault, lexeme ≠ .fault fault)
    (read : next afterDot place char (text ++ after) = ⟨lexeme, stop, left ++ after⟩) :
    Reads afterDot char text lexeme left := by
  intro other
  by_cases blank : isBlank char = true
  · simp only [next, blank, ↓reduceIte] at read ⊢
    obtain ⟨lexemes, -, rest⟩ := Step.mk.inj read
    rw [← lexemes, List.append_cancel_right rest]
    exact ⟨_, rfl⟩
  by_cases quote : char = '"'
  · subst quote
    obtain ⟨lexemes, -, rest⟩ := Step.mk.inj read
    cases closed : (quoted (place.past '"') (text ++ after)).terminated with
    | false =>
        rw [Quoted.lexeme, closed] at lexemes
        exact absurd lexemes.symm (clean _)
    | true =>
        cases faultless : (quoted (place.past '"') (text ++ after)).faults with
        | cons fault faults =>
            simp only [Quoted.lexeme, closed, faultless, ↓reduceIte] at lexemes
            exact absurd lexemes.symm (clean _)
        | nil =>
            simp only [Quoted.lexeme, closed, faultless, ↓reduceIte] at lexemes
            obtain ⟨body, whole, -, quotes⟩ := quoted_quotes _ _ closed faultless
            rw [rest, ← List.cons_append, ← List.append_assoc] at whole
            rw [List.append_cancel_right whole, next_string quotes, lexemes]
            exact ⟨_, rfl⟩
  by_cases digit : char.isDigit = true
  · simp only [next, blank, quote, digit, Bool.false_eq_true, ↓reduceIte] at read ⊢
    exact @number_alone place (char :: text) after left afterDot lexeme stop clean read other
  by_cases starts : startsName char = true
  · simp only [next, blank, quote, digit, starts, Bool.false_eq_true, ↓reduceIte] at read ⊢
    obtain ⟨lexemes, -, rest⟩ := Step.mk.inj read
    obtain ⟨same, left⟩ := @takeWhile_alone (char :: text) after left _ rest
    rw [name, same, left, ← lexemes]
    exact ⟨_, rfl⟩
  simp only [next, blank, quote, digit, starts, Bool.false_eq_true, ↓reduceIte] at read ⊢
  cases comment : comment? place char (text ++ after) with
  | some step =>
      simp only [comment] at read
      rw [read] at comment
      obtain ⟨stop, found⟩ := comment?_alone clean comment other
      rw [found]
      exact ⟨stop, rfl⟩
  | none =>
      simp only [comment] at read
      rw [comment?_none comment other]
      cases mark : mark? place char (text ++ after) with
      | some step =>
          simp only [mark] at read
          rw [read] at mark
          obtain ⟨stop, found⟩ := mark?_alone mark other
          rw [found]
          exact ⟨stop, rfl⟩
      | none =>
          simp only [mark] at read
          exact absurd (Step.mk.inj read).1.symm (clean _)

section Comes

variable {flag last : Bool} {text rest more : List Char} {kinds : List Kind} {sep : Char}

/-- The same is read where a separator stands in the place of what was left. -/
theorem Reads.separated {char : Char} {lexeme : Lexeme} {left : List Char}
    (reads : Reads flag char text lexeme left) (clean : ∀ fault, lexeme ≠ .fault fault)
    (apart : separates sep = true) (ends : OpensLine char text → sep = '\n' ∨ '\n' ∈ text) :
    Reads flag char (text ++ sep :: more) lexeme (left ++ sep :: more) := by
  intro place
  obtain ⟨stop, read⟩ := reads place
  have faultless : ∀ fault, (next flag place char text).lexeme ≠ .fault fault := by rwa [read]
  refine ⟨stop, ?_⟩
  rw [next_separated place text more apart flag char faultless ends, read]
  rfl

/-- A text is read as tokens of these kinds up to the rest of it. The flags tell whether the last
token is a dot, before the text and before its rest. -/
inductive Comes (rest : List Char) : Bool → List Char → List Kind → Bool → Prop
  | here {flag : Bool} : Comes rest flag rest [] flag
  | blank {flag last : Bool} {char : Char} {text left : List Char} {kinds : List Kind}
      (reads : Reads flag char text .blank left) (follow : Comes rest flag left kinds last) :
      Comes rest flag (char :: text) kinds last
  | token {flag last : Bool} {char : Char} {text left : List Char} {kind : Kind}
      {kinds : List Kind} (reads : Reads flag char text (.token kind) left)
      (follow : Comes rest (kind = .dot) left kinds last) :
      Comes rest flag (char :: text) (kind :: kinds) last

theorem Comes.trans {middle : Bool} {left : List Char} {others : List Kind}
    (first : Comes left flag text kinds middle) (second : Comes rest middle left others last) :
    Comes rest flag text (kinds ++ others) last := by
  induction first with
  | here => exact second
  | blank reads _ ih => exact .blank reads (ih second)
  | token reads _ ih => exact .token reads (ih second)

/-- What is read as tokens of some kinds is scanned as such tokens, wherever it begins. -/
theorem Comes.scans (comes : Comes rest flag text kinds last) (place : Position) :
    ∃ stop tokens, tokens.map Token.kind = kinds ∧
      run flag place text = (run last stop rest).prepend tokens := by
  induction comes generalizing place with
  | here => exact ⟨place, [], rfl, rfl⟩
  | blank reads _ ih =>
      obtain ⟨after, read⟩ := reads place
      rw [run_blank read]
      exact ih after
  | @token _ _ _ _ _ kind _ reads _ ih =>
      obtain ⟨after, read⟩ := reads place
      obtain ⟨stop, tokens, same, scans⟩ := ih after
      refine ⟨stop, ⟨kind, place⟩ :: tokens, congrArg (List.cons kind) same, ?_⟩
      rw [run_token read, scans]
      rfl

/-- Where nothing is left, these are the tokens of the text before the last. -/
theorem Comes.ofText {text : String} (comes : Comes [] false text.toList kinds last) :
    ∃ tokens, Token.ofText text = .ok tokens ∧ tokens.map Token.kind = kinds ++ [.eof] := by
  obtain ⟨stop, tokens, same, scans⟩ := comes.scans .start
  refine ⟨tokens ++ [⟨.eof, stop⟩], ?_, ?_⟩
  · rw [Token.ofText_eq_ok_iff, scans, run]
    rfl
  · rw [List.map_append, same]
    rfl

theorem Reads.suffix {char : Char} {lexeme : Lexeme} {left : List Char}
    (reads : Reads flag char text lexeme left) : left <:+ text := by
  obtain ⟨stop, read⟩ := reads .start
  have shorter := next_suffix flag .start char text
  rwa [read] at shorter

theorem Comes.suffix (comes : Comes rest flag text kinds last) : rest <:+ text := by
  induction comes with
  | here => exact List.suffix_rfl
  | blank reads _ ih | token reads _ ih =>
      exact (ih.trans reads.suffix).trans (List.suffix_cons _ _)

/-- What is read first and what follows it stand before the rest. -/
theorem Comes.front {after : Bool} {char : Char} {lexeme : Lexeme} {left : List Char}
    (follow : Comes rest after left kinds last) (reads : Reads flag char text lexeme left) :
    ∃ taken behind, left = behind ++ rest ∧ text = taken ++ behind ++ rest := by
  obtain ⟨behind, rfl⟩ := follow.suffix
  obtain ⟨taken, rfl⟩ := reads.suffix
  exact ⟨taken, behind, rfl, (List.append_assoc taken behind rest).symm⟩

/-- Where nothing is taken there is no token. -/
theorem Comes.nothing (comes : Comes rest flag rest kinds last) : kinds = [] ∧ last = flag := by
  have shorter : ∀ {char : Char} {text left : List Char}, left <:+ text → rest <:+ left →
      rest ≠ char :: text := by
    rintro char text left step follow rfl
    exact absurd (follow.trans step).length_le (Nat.not_succ_le_self _)
  generalize same : rest = text at comes
  cases comes with
  | here => exact ⟨rfl, rfl⟩
  | blank reads follow | token reads follow =>
      exact absurd same (shorter reads.suffix (same ▸ follow.suffix))

theorem Reads.unique {char : Char} {first second : Lexeme} {left other : List Char}
    (reads : Reads flag char text first left) (again : Reads flag char text second other) :
    first = second ∧ left = other := by
  obtain ⟨stop, read⟩ := reads .start
  obtain ⟨stop', read'⟩ := again .start
  obtain ⟨same, -, left⟩ := Step.mk.inj (read.symm.trans read')
  exact ⟨same, left⟩

theorem Reads.alone {char : Char} {lexeme : Lexeme} {left after : List Char}
    (reads : Reads flag char (text ++ after) lexeme (left ++ after))
    (clean : ∀ fault, lexeme ≠ .fault fault) : Reads flag char text lexeme left :=
  (reads .start).elim fun _ => reads_of_next clean

theorem reads_blank (flag : Bool) {char : Char} (blank : isBlank char = true) (text : List Char) :
    Reads flag char text .blank text := by
  intro place
  rw [next, if_pos blank]
  exact ⟨_, rfl⟩

/-- A block comment without a line feed is a blank. -/
theorem reads_comment (flag : Bool) {inside : List Char} (closed : IsComment inside)
    (inline : '\n' ∉ inside) (text : List Char) :
    Reads flag '/' ('*' :: (inside ++ '*' :: '/' :: text)) .blank text := by
  intro place
  have unfed : '\n' ∉ inside ++ ['*', '/'] := by simpa using inline
  have found : comment? place '/' ('*' :: (inside ++ '*' :: '/' :: text)) =
      some (.taking .blank place ('/' :: '*' :: (inside ++ ['*', '/'])) text) := by
    rw [comment?, inside?_of_isComment closed]
    simp only [unfed, ↓reduceIte]
  exact ⟨_, next_of_comment place _ flag found⟩

/-- A comment to the end of its line takes the characters before the next line feed. -/
theorem reads_line (flag : Bool) {char : Char} (opens : OpensLine char text) :
    Reads flag char text .blank (text.dropWhile (· ≠ '\n')) := by
  intro place
  rcases opens with rfl | ⟨rfl, slash⟩
  · exact ⟨_, next_of_comment place text flag rfl⟩
  · obtain ⟨text, rfl⟩ := List.head?_eq_some_iff.mp slash
    exact ⟨_, next_of_comment place ('/' :: text) flag rfl⟩

theorem OpensLine.append {char : Char} (opens : OpensLine char text) (more : List Char) :
    OpensLine char (text ++ more) := by
  refine opens.imp_right fun both => ⟨both.1, ?_⟩
  rw [List.head?_append, both.2]
  rfl

/-- What stands before the rest is read as the same tokens where a separator takes the place of the
rest. What the separator begins `leads` to another rest without a token. A comment to the end of
its line that goes up to the rest takes more of it, and `lines` says that it stops there as well. -/
theorem Comes.instead {front target : List Char}
    (comes : Comes rest flag (front ++ rest) kinds last) (apart : separates sep = true)
    (leads : ∀ flag, Comes target flag (sep :: more) [] flag)
    (lines : (∀ char ∈ rest.head?, char = '\n') →
      (sep :: more).dropWhile (· ≠ '\n') = target) :
    Comes target flag (front ++ sep :: more) kinds last := by
  generalize whole : front ++ rest = text at comes
  induction comes generalizing front with
  | here =>
      cases List.append_left_eq_self.mp whole
      exact leads _
  | @blank flag last char text left kinds reads follow ih =>
      obtain ⟨taken, behind, rfl, rfl⟩ := follow.front reads
      rw [← List.cons_append] at whole
      cases List.append_cancel_right whole
      by_cases ends : OpensLine char (taken ++ behind) → sep = '\n' ∨ '\n' ∈ taken ++ behind
      · exact .blank ((reads.alone (by simp)).separated (by simp) apart ends) (ih rfl)
      obtain ⟨opens, unfed⟩ := Classical.not_imp.mp ends
      -- the comment goes on into the rest, which begins a line or is the end
      have passes : ∀ more, (taken ++ behind ++ more).dropWhile (· ≠ '\n') =
          more.dropWhile (· ≠ '\n') := by
        refine fun more => List.dropWhile_append_of_pos ?_
        intro char member
        exact decide_eq_true fun feed => unfed (.inr (feed ▸ member))
      have empty : behind = [] := by
        have line := ((reads.alone (by simp)).unique (reads_line _ opens)).2
        rwa [← List.append_nil (taken ++ behind), passes] at line
      subst empty
      obtain ⟨rfl, rfl⟩ := follow.nothing
      have stop : rest = rest.dropWhile (· ≠ '\n') := by
        have line := (reads.unique (reads_line last (opens.append rest))).2
        rwa [passes] at line
      have begins : ∀ char ∈ rest.head?, char = '\n' := by
        intro char first
        have ends := List.head?_dropWhile_not (· ≠ '\n') rest
        rw [← stop, Option.mem_def.mp first] at ends
        simpa using ends
      have comment := reads_line last (opens.append (sep :: more))
      rw [passes, lines begins] at comment
      exact .blank comment .here
  | @token flag last char text left kind kinds reads follow ih =>
      obtain ⟨taken, behind, rfl, rfl⟩ := follow.front reads
      rw [← List.cons_append] at whole
      cases List.append_cancel_right whole
      have alone := reads.alone (by simp)
      refine .token (alone.separated (by simp) apart ?_) (ih rfl)
      intro opens
      cases (alone.unique (reads_line _ opens)).1

end Comes

/-! ### Padding -/

/-- What may be put between two tokens: blanks, or a block comment on its line with a space on each
side. -/
inductive Padding : List Char → Prop
  | blanks {chars : List Char} (nonempty : chars ≠ [])
      (blank : ∀ char ∈ chars, char ∈ [' ', '\t', '\r']) : Padding chars
  | comment {inside : List Char} (closed : ¬['*', '/'] <:+: inside) (inline : '\n' ∉ inside) :
      Padding (' ' :: (comment inside ++ [' ']))

section Padding

variable {pad : List Char}

/-- A star that ends what stands in a comment does not close it. -/
theorem isComment_of_closed {inside : List Char} (closed : ¬['*', '/'] <:+: inside) :
    IsComment inside := by
  rintro ⟨before, behind, same⟩
  rcases List.eq_nil_or_concat behind with rfl | ⟨others, last, rfl⟩
  · rw [List.append_nil] at same
    have ends := congrArg List.getLast? same
    simp at ends
  · rw [List.concat_eq_append, ← List.append_assoc] at same
    exact closed ⟨before, others, (List.append_inj' same rfl).1⟩

theorem comes_blanks {chars : List Char} (blank : ∀ char ∈ chars, char ∈ [' ', '\t', '\r'])
    (rest : List Char) (flag : Bool) : Comes rest flag (chars ++ rest) [] flag := by
  induction chars with
  | nil => exact .here
  | cons char chars ih =>
      obtain ⟨first, others⟩ := List.forall_mem_cons.mp blank
      have is : isBlank char = true := by simpa [isBlank, or_assoc] using first
      exact .blank (reads_blank flag is _) (ih others)

/-- Padding has no token. -/
theorem Padding.comes (padding : Padding pad) (rest : List Char) (flag : Bool) :
    Comes rest flag (pad ++ rest) [] flag := by
  cases padding with
  | blanks _ blank => exact comes_blanks blank rest flag
  | @comment inside closed inline =>
      have ends : Comes rest flag (' ' :: rest) [] flag := .blank (reads_blank flag rfl rest) .here
      have comment := reads_comment flag (isComment_of_closed closed) inline (' ' :: rest)
      have whole : ' ' :: (Spelling.comment inside ++ [' ']) ++ rest =
          ' ' :: '/' :: '*' :: (inside ++ '*' :: '/' :: ' ' :: rest) := by simp [Spelling.comment]
      rw [whole]
      exact .blank (reads_blank flag rfl _) (.blank comment ends)

/-- Padding begins with a separator. -/
theorem Padding.cons (padding : Padding pad) :
    ∃ sep more, pad = sep :: more ∧ separates sep = true := by
  cases padding with
  | blanks nonempty blank =>
      obtain ⟨sep, more, rfl⟩ := List.exists_cons_of_ne_nil nonempty
      refine ⟨sep, more, rfl, ?_⟩
      have first := blank sep List.mem_cons_self
      simp only [List.mem_cons, List.not_mem_nil, or_false] at first
      rcases first with rfl | rfl | rfl
      · decide
      · decide
      · decide
  | comment => exact ⟨' ', _, rfl, by decide⟩

theorem Padding.inline (padding : Padding pad) : ∀ char ∈ pad, char ≠ '\n' := by
  cases padding with
  | blanks _ blank =>
      rintro char member rfl
      exact absurd (blank _ member) (by decide)
  | comment _ inline =>
      rintro char member rfl
      simp [Spelling.comment, inline] at member

/-- Padding may be put before the rest of what is read. -/
theorem Comes.padded {flag last : Bool} {front rest : List Char} {kinds : List Kind}
    (comes : Comes rest flag (front ++ rest) kinds last) (padding : Padding pad) :
    Comes rest flag (front ++ (pad ++ rest)) kinds last := by
  obtain ⟨sep, more, rfl, apart⟩ := padding.cons
  refine comes.instead apart (padding.comes rest) ?_
  intro begins
  have inline : ∀ char ∈ sep :: more, decide (char ≠ '\n') = true :=
    fun char member => decide_eq_true (padding.inline char member)
  change (sep :: more ++ rest).dropWhile (· ≠ '\n') = rest
  rw [List.dropWhile_append_of_pos inline]
  cases rest with
  | nil => rfl
  | cons char rest =>
      cases begins char rfl
      rfl

end Padding

/-! ### The places of tokens -/

/-- Some characters further on, the place is another one. -/
theorem pastAll_grows (place : Position) (chars : List Char) :
    place.line < (place.pastAll chars).line ∨ (place.pastAll chars).line = place.line ∧
      place.column + chars.length ≤ (place.pastAll chars).column := by
  induction chars generalizing place with
  | nil => exact .inr ⟨rfl, Nat.le_refl _⟩
  | cons char chars ih =>
      have inner := ih (place.past char)
      rw [Position.pastAll_cons]
      by_cases feed : char = '\n'
      · subst feed
        rw [Position.past_newline] at inner ⊢
        dsimp only at inner
        omega
      · have wide := char.utf8Size_pos
        rw [Position.past_of_ne _ _ feed] at inner ⊢
        dsimp only at inner
        rw [List.length_cons]
        omega

/-- The places behind two fronts of a text differ. -/
theorem eq_of_pastAll_eq {place : Position} {front other behind rest : List Char}
    (whole : front ++ behind = other ++ rest)
    (same : place.pastAll front = place.pastAll other) : front = other ∧ behind = rest := by
  have none : ∀ {place : Position} {more : List Char}, place.pastAll more = place → more = [] := by
    intro place more same
    have grows := pastAll_grows place more
    rw [same] at grows
    exact List.length_eq_zero_iff.mp (by omega)
  rcases List.append_eq_append_iff.mp whole with ⟨more, rfl, rfl⟩ | ⟨more, rfl, rfl⟩
  · rw [Position.pastAll_append] at same
    simp [none same.symm]
  · rw [Position.pastAll_append] at same
    simp [none same]

/-- A token begins here, and the text before it is read. -/
def Begins (flag : Bool) (place : Position) (text : List Char) (token : Token) : Prop :=
  ∃ front rest kinds last, text = front ++ rest ∧ token.place = place.pastAll front ∧
    Comes rest flag text kinds last

/-- What is scanned without a fault is read up to its end, and up to where each of its tokens
begins. -/
theorem run_comes {flag : Bool} {place : Position} {text : List Char}
    (faultless : (run flag place text).faults = []) :
    (∃ kinds last, Comes [] flag text kinds last) ∧
      ∀ token ∈ (run flag place text).tokens, Begins flag place text token := by
  induction size : text.length using Nat.strongRecOn generalizing flag place text with
  | ind length ih =>
      cases text with
      | nil =>
          rw [run]
          refine ⟨⟨[], flag, .here⟩, List.forall_mem_singleton.mpr ?_⟩
          exact ⟨[], [], [], flag, rfl, rfl, .here⟩
      | cons char text =>
          have shorter := length_next_le flag place char text
          have cuts := next_cuts flag place char text
          rw [run] at faultless ⊢
          rw [List.length_cons] at size
          generalize read : next flag place char text = step at *
          obtain ⟨lexeme, after, left⟩ := step
          dsimp only at shorter
          have reads : (∀ fault, lexeme ≠ .fault fault) → Reads flag char text lexeme left := by
            intro clean
            rw [← List.append_nil text, ← List.append_nil left] at read
            exact reads_of_next clean read
          -- a token behind the first lexeme begins there for the whole text
          have later : (∀ fault, lexeme ≠ .fault fault) → ∀ {token}, (∀ {rest kinds last},
              Comes rest (lexeme.afterDot flag) left kinds last →
                ∃ kinds, Comes rest flag (char :: text) kinds last) →
              Begins (lexeme.afterDot flag) after left token →
                Begins flag place (char :: text) token := by
            rintro clean token goes ⟨front, rest, kinds, last, whole, begins, comes⟩
            obtain ⟨taken, split, rfl, -⟩ := cuts clean
            obtain ⟨kinds, longer⟩ := goes comes
            refine ⟨taken ++ front, rest, kinds, last, ?_, ?_, longer⟩
            · rw [split, whole, List.append_assoc]
            · rw [begins, Position.pastAll_append]
          cases lexeme with
          | fault => cases faultless
          | blank =>
              have step := reads (by simp)
              obtain ⟨⟨kinds, last, all⟩, each⟩ := ih left.length (by omega) faultless rfl
              refine ⟨⟨kinds, last, .blank step all⟩, ?_⟩
              intro token member
              exact later (by simp) (fun comes => ⟨_, .blank step comes⟩) (each token member)
          | token kind =>
              have step := reads (by simp)
              obtain ⟨⟨kinds, last, all⟩, each⟩ := ih left.length (by omega) faultless rfl
              refine ⟨⟨kind :: kinds, last, .token step all⟩, List.forall_mem_cons.mpr ⟨?_, ?_⟩⟩
              · exact ⟨[], char :: text, [], flag, rfl, rfl, .here⟩
              · intro token member
                exact later (by simp) (fun comes => ⟨_, .token step comes⟩) (each token member)

end ConfigLang.Scan

namespace ConfigLang

open Scan

/-- Padding may be put before any token of a text. The tokens are the same, each in its new place. -/
theorem Token.ofText_padded {before after pad : String} {tokens : List Token} {token : Token}
    (scanned : ofText (before ++ after) = .ok tokens) (member : token ∈ tokens)
    (begins : token.place = .behind before.toList) (padding : Padding pad.toList) :
    ∃ others, ofText (before ++ pad ++ after) = .ok others ∧
      others.map Token.kind = tokens.map Token.kind := by
  have scan := ofText_eq_ok_iff.mp scanned
  rw [String.toList_append] at scan
  have faultless := congrArg Result.faults scan
  have each := (run_comes faultless).2
  rw [scan] at each
  obtain ⟨front, rest, kinds, last, whole, place, comes⟩ := each token member
  rw [← Position.pastAll_start] at begins
  obtain ⟨rfl, rfl⟩ := eq_of_pastAll_eq whole (begins.symm.trans place)
  obtain ⟨stop, read, -, first⟩ := comes.scans .start
  rw [first] at faultless
  obtain ⟨others, ends, behind⟩ := (run_comes faultless).1
  have short : Comes [] false (before ++ after).toList (kinds ++ others) ends := by
    rw [String.toList_append]
    exact comes.trans behind
  have long : Comes [] false (before ++ pad ++ after).toList (kinds ++ others) ends := by
    rw [String.toList_append, String.toList_append, List.append_assoc]
    exact (comes.padded padding).trans behind
  obtain ⟨same, is, keeps⟩ := short.ofText
  cases scanned.symm.trans is
  obtain ⟨more, becomes, alike⟩ := long.ofText
  exact ⟨more, becomes, alike.trans keeps.symm⟩

/-- A block comment behind a dot, and blanks behind a comment to the end of its line. -/
theorem Token.ofText_padded_dot :
    let kinds : List Kind := [.ident "a", .dot, .int 0, .dot, .int 1, .newline, .eof]
    (∃ others, ofText "a. /* 9.*/ 0.1 // c\n" = .ok others ∧ others.map Token.kind = kinds) ∧
      ∃ others, ofText "a.0.1 // c\t \n" = .ok others ∧ others.map Token.kind = kinds := by
  have scanned : ofText "a.0.1 // c\n" = .ok [⟨.ident "a", ⟨1, 1⟩⟩, ⟨.dot, ⟨1, 2⟩⟩,
      ⟨.int 0, ⟨1, 3⟩⟩, ⟨.dot, ⟨1, 4⟩⟩, ⟨.int 1, ⟨1, 5⟩⟩, ⟨.newline, ⟨1, 11⟩⟩, ⟨.eof, ⟨2, 1⟩⟩] := by
    decide +kernel
  have comment : Padding " /* 9.*/ ".toList :=
    @Padding.comment [' ', '9', '.'] (by decide) (by decide)
  have blanks : Padding "\t ".toList := @Padding.blanks ['\t', ' '] (by simp) (by simp)
  constructor
  · exact @Token.ofText_padded "a." "0.1 // c\n" " /* 9.*/ " _ ⟨.int 0, ⟨1, 3⟩⟩ scanned
      (by decide +kernel) (by decide +kernel) comment
  · exact @Token.ofText_padded "a.0.1 // c" "\n" "\t " _ ⟨.newline, ⟨1, 11⟩⟩ scanned
      (by decide +kernel) (by decide +kernel) blanks

end ConfigLang
