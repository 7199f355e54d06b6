import ConfigLang.Proofs.Spelling
/-!
String literals. What is spelled between quotes is read as its contents, and every string without
the beginning of a template of the form that has no escape is the contents of a literal.
-/

set_option autoImplicit false

namespace ConfigLang

namespace Spelling

theorem Escape.unescape? {letter meant : Char} (is : Escape letter meant) :
    Scan.unescape? letter = some meant := by
  cases is with
  | feed | tab | carriage | backslash | quote | dollar => rfl

/-- A brace has no escape, so that it stands for itself. -/
theorem Quotes.head?_brace {body contents : List Char} (quotes : Quotes body contents)
    (opens : contents.head? = some '{') : body.head? = some '{' := by
  cases quotes with
  | nil => cases opens
  | plain => exact opens
  | escape is =>
      cases opens
      cases is

/-- Neither has a percent sign, so that the two never stand together. -/
theorem Quotes.quotable {body contents : List Char} (quotes : Quotes body contents) :
    ¬['%', '{'] <:+: contents := by
  induction quotes with
  | nil => exact fun template => absurd template.length_le (by decide)
  | @plain char body contents _ plain follow ih =>
      intro template
      rcases List.infix_cons_iff.mp template with ⟨others, front⟩ | inner
      · obtain ⟨rfl, same⟩ := List.cons.inj front
        exact plain (by decide) (follow.head?_brace (by rw [← same]; rfl))
      · exact ih inner
  | escape is _ ih =>
      intro template
      rcases List.infix_cons_iff.mp template with ⟨others, front⟩ | inner
      · cases (List.cons.inj front).1
        cases is
      · exact ih inner

/-- A character and the rest of the contents, each written with escapes. -/
theorem Quotes.cons_escape {body contents : List Char} (char : Char)
    (quotes : Quotes body contents) (harmless : char = '%' → body.head? ≠ some '{') :
    Quotes (Source.escape char ++ body) (char :: contents) := by
  unfold Source.escape
  split
  · exact .escape .backslash quotes
  · exact .escape .quote quotes
  · exact .escape .feed quotes
  · exact .escape .carriage quotes
  · exact .escape .tab quotes
  · exact .escape .dollar quotes
  next unslashed unquoted unfed _ _ undollar =>
    have bare : char ∉ ['"', '\\', '\n'] := by
      simp only [List.mem_cons, List.not_mem_nil, or_false, not_or]
      exact ⟨unquoted, unslashed, unfed⟩
    refine .plain bare ?_ quotes
    intro template
    simp only [List.mem_cons, List.not_mem_nil, or_false] at template
    exact harmless (template.resolve_left undollar)

theorem head?_flatMap_escape {contents : List Char}
    (opens : (contents.flatMap Source.escape).head? = some '{') : contents.head? = some '{' := by
  cases contents with
  | nil => cases opens
  | cons char contents =>
      rw [List.flatMap_cons] at opens
      unfold Source.escape at opens
      split at opens
      case h_7 => exact opens
      all_goals cases opens

/-- Contents without the beginning of a template can be written. -/
theorem quotes_flatMap_escape {contents : List Char} (quotable : ¬['%', '{'] <:+: contents) :
    Quotes (contents.flatMap Source.escape) contents := by
  induction contents with
  | nil => exact .nil
  | cons char contents ih =>
      rw [List.flatMap_cons]
      refine .cons_escape char (ih fun inner => quotable (List.infix_cons inner)) ?_
      rintro rfl opens
      obtain ⟨others, rfl⟩ := List.head?_eq_some_iff.mp (head?_flatMap_escape opens)
      exact quotable ⟨[], others, rfl⟩

end Spelling

namespace Scan

open Spelling

/-- What is spelled between quotes is read as its contents. -/
theorem quoted_of_quotes {body contents : List Char} (quotes : Quotes body contents)
    (place : Position) (rest : List Char) :
    quoted place (body ++ '"' :: rest) =
      ⟨true, contents, [], place.pastAll (body ++ ['"']), rest⟩ := by
  induction quotes generalizing place with
  | nil => rfl
  | @plain char body contents bare plain _ ih =>
      simp only [List.mem_cons, List.not_mem_nil, or_false, not_or] at bare plain
      have closed : opensTemplate char (body ++ '"' :: rest) = false := by
        rw [opensTemplate, Bool.and_eq_false_iff]
        by_cases template : char = '$' ∨ char = '%'
        · right
          cases body with
          | nil => rfl
          | cons second body => exact decide_eq_false (plain template)
        · left
          simpa using template
      rw [List.cons_append, quoted_plain _ _ bare.2.2 bare.1 bare.2.1, closed,
        if_neg Bool.false_ne_true, ih]
      rfl
  | escape is _ ih =>
      rw [List.cons_append, List.cons_append, quoted]
      simp only [is.unescape?, ih]
      rfl

/-- A string in quotes is one token, whatever follows it. -/
theorem next_string {body contents : List Char} (quotes : Quotes body contents) (afterDot : Bool)
    (place : Position) (rest : List Char) :
    next afterDot place '"' (body ++ '"' :: rest) =
      ⟨.token (.string (String.ofList contents)), place.pastAll ('"' :: (body ++ ['"'])), rest⟩ := by
  have read := quoted_of_quotes quotes (place.past '"') rest
  exact congrArg (fun quoted => Step.mk (quoted.lexeme place) quoted.after quoted.rest) read

theorem gives_string {body contents rest : List Char} {text : String} (quotes : Quotes body contents)
    (whole : text.toList = '"' :: (body ++ ['"'])) :
    Gives text (Only (.string (String.ofList contents))) rest := by
  apply gives_of_next whole
  intro flag place
  rw [List.append_assoc]
  exact ⟨_, next_string quotes flag place rest⟩

/-- A string in quotes is the token of its contents. -/
theorem gives_quote {contents : String} {rest : List Char}
    (quotable : Source.IsQuotable contents) :
    Gives (Source.quote contents) (Only (.string contents)) rest := by
  have gives : Gives (Source.quote contents) _ rest :=
    gives_string (quotes_flatMap_escape quotable) (by simp [Source.quote])
  rwa [String.ofList_toList] at gives

end Scan

/-- Every token but the last is spelled somewhere in the text. -/
theorem Tiles.spelled {afterDot : Bool} {before rest : List Char} {tokens : List Token}
    {spans : List Span} (tiles : Tiles afterDot before rest tokens spans) :
    ∀ token ∈ tokens, token.kind = .eof ∨ ∃ slice, Spelling.Spells token.kind slice := by
  induction tiles with
  | stop => exact List.forall_mem_singleton.mpr (.inl rfl)
  | token _ spells _ _ ih => exact List.forall_mem_cons.mpr ⟨.inr ⟨_, spells⟩, ih⟩

/-- The strings that literals stand for are those in which no percent sign is before a brace. Each
of them is read back from the literal with its escapes, which is the only token of its text. -/
theorem Token.contents_iff_quotable (contents : String) :
    ((∃ text tokens place, ofText text = .ok tokens ∧
        (⟨.string contents, place⟩ : Token) ∈ tokens) ↔ ¬['%', '{'] <:+: contents.toList) ∧
      (¬['%', '{'] <:+: contents.toList → ofText (Source.quote contents) =
        .ok [⟨.string contents, .start⟩, ⟨.eof, .behind (Source.quote contents).toList⟩]) := by
  have reads : ¬['%', '{'] <:+: contents.toList → ofText (Source.quote contents) =
      .ok [⟨.string contents, .start⟩, ⟨.eof, .behind (Source.quote contents).toList⟩] := by
    intro quotable
    have whole : (Source.quote contents).toList =
        '"' :: (contents.toList.flatMap Source.escape ++ ['"']) := by simp [Source.quote]
    have read := Scan.next_string (Spelling.quotes_flatMap_escape quotable) false .start []
    rw [String.ofList_toList, ← whole, Position.pastAll_start] at read
    rw [ofText_eq_ok_iff]
    generalize Position.behind (Source.quote contents).toList = stop at read ⊢
    rw [whole, Scan.run_token read, Scan.run]
    rfl
  refine ⟨Iff.intro ?_ ?_, reads⟩
  case refine_2 =>
    intro quotable
    exact ⟨_, _, _, reads quotable, List.mem_cons_self⟩
  rintro ⟨text, tokens, place, scanned, member⟩
  have scan := ofText_eq_ok_iff.mp scanned
  obtain ⟨spans, tiles⟩ := Scan.run_tiles false [] text.toList (congrArg Scan.Result.faults scan)
  change Tiles false [] text.toList (Scan.run false .start text.toList).tokens spans at tiles
  rw [scan] at tiles
  rcases tiles.spelled _ member with last | ⟨slice, spells⟩
  · cases last
  · generalize same : Kind.string contents = kind at spells
    cases spells with
    | mark mark =>
        subst same
        cases mark
    | string quotes =>
        cases same
        rw [String.toList_ofList]
        exact quotes.quotable
    | ident | int | float | feed | lines => cases same

/-- A dollar sign before a brace can be written, and so can a percent sign at the end. -/
theorem Token.contents_iff_quotable_dollar :
    ¬['%', '{'] <:+: "\"$\x7b\n%".toList ∧
      ofText "\"\\\"\\$\x7b\\n%\"" = .ok [⟨.string "\"$\x7b\n%", ⟨1, 1⟩⟩, ⟨.eof, ⟨1, 11⟩⟩] := by
  have quotable : ¬['%', '{'] <:+: "\"$\x7b\n%".toList := by decide +kernel
  have written : Source.quote "\"$\x7b\n%" = "\"\\\"\\$\x7b\\n%\"" := by decide +kernel
  have read := (contents_iff_quotable _).2 quotable
  rw [written] at read
  have last : Position.behind "\"\\\"\\$\x7b\\n%\"".toList = ⟨1, 11⟩ := by decide +kernel
  rw [last] at read
  exact ⟨quotable, read⟩

end ConfigLang
