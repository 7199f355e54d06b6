import ConfigLang.Proofs.Leaves
/-!
Two lists of tokens that are the same but for places and newlines. Where the first list has newlines
so has the second, and the second has more of them only where they mean nothing: behind a comma, an
opening parenthesis or an operator between two operands, and ahead of a closing parenthesis.
-/

set_option autoImplicit false

namespace ConfigLang

open Reader (PastNewlines)

namespace Token

/-- Whether newlines may become others where such a side is before them and such tokens behind. -/
def Allows (side : Side) (lines feeds rest : List Token) : Prop :=
  (lines = [] ↔ feeds = []) ∨
    lines = [] ∧ (side = .free ∨ ∃ token ∈ rest.head?, token.kind = .rightParen)

mutual

/-- The same tokens but for newlines, where no newline comes first. -/
inductive Aligned : Side → List Token → List Token → Prop
  | nil {side : Side} : Aligned side [] []
  | cons {side : Side} {token other : Token} {tokens others : List Token}
      (same : other.kind = token.kind) (counts : token.kind ≠ .newline)
      (follow : Spaced (side.after token.kind) tokens others) :
      Aligned side (token :: tokens) (other :: others)

/-- The same tokens but for newlines. -/
inductive Spaced : Side → List Token → List Token → Prop
  | mk {side : Side} {lines feeds tokens others : List Token} (newlines : Grammar.Newlines lines)
      (again : Grammar.Newlines feeds) (allowed : Allows side lines feeds tokens)
      (aligned : Aligned (side.run lines) tokens others) :
      Spaced side (lines ++ tokens) (feeds ++ others)

end

section Taking

variable {side : Side} {lines feeds rest others : List Token} {token : Token} {kind : Kind}

theorem Allows.nonempty (allowed : Allows side lines feeds rest) (some : lines ≠ []) :
    feeds ≠ [] := by
  rcases allowed with both | ⟨none, _⟩
  · exact fun empty => some (both.mpr empty)
  · exact absurd none some

/-- Where newlines mean something they stay as they are, or as they are not. -/
theorem Allows.both (allowed : Allows side lines feeds rest) (bound : side ≠ .free)
    (within : ∀ token ∈ rest.head?, token.kind ≠ .rightParen) : lines = [] ↔ feeds = [] := by
  rcases allowed with both | ⟨_, free | ⟨first, same, closes⟩⟩
  · exact both
  · exact absurd free bound
  · exact absurd closes (within first same)

theorem Aligned.past (aligned : Aligned side rest others) : PastNewlines rest := by
  cases aligned with
  | nil => exact .nil
  | cons _ counts =>
      intro first same
      cases same
      exact counts

/-- The first token that is no newline. -/
theorem Aligned.take (aligned : Aligned side (token :: rest) others) (is : token.kind = kind) :
    ∃ other follow, others = other :: follow ∧ other.kind = kind ∧
      Spaced (side.after kind) rest follow := by
  cases aligned with
  | cons same counts follow =>
      rw [is] at same follow
      exact ⟨_, _, rfl, same, follow⟩

/-- Newlines at the front of a list end where a token comes that is none. -/
theorem newlines_unique {tokens : List Token} (newlines : Grammar.Newlines lines)
    (again : Grammar.Newlines feeds) (past : PastNewlines rest) (past' : PastNewlines tokens)
    (same : lines ++ rest = feeds ++ tokens) : lines = feeds ∧ rest = tokens := by
  have first : Reader.newLines .start (lines ++ rest) = .done (Grammar.newLines lines) rest :=
    Reader.newLines_append newlines past
  rw [same, Reader.newLines_append again past'] at first
  cases (Reply.done.inj first).2
  exact ⟨List.append_cancel_right same, rfl⟩

/-- All newlines that come first. -/
theorem Spaced.takeLines (spaced : Spaced side (lines ++ rest) others)
    (newlines : Grammar.Newlines lines) (past : PastNewlines rest) :
    ∃ feeds follow, others = feeds ++ follow ∧ Grammar.Newlines feeds ∧
      Allows side lines feeds rest ∧ Aligned (side.run lines) rest follow := by
  generalize whole : lines ++ rest = tokens at spaced
  cases spaced with
  | mk newlines' again allowed aligned =>
      obtain ⟨rfl, rfl⟩ := newlines_unique newlines newlines' past aligned.past whole
      exact ⟨_, _, rfl, again, allowed, aligned⟩

/-- Where no newline is and none may be added, none comes first. -/
theorem Spaced.aligned (spaced : Spaced side (token :: rest) others) (bound : side ≠ .free)
    (counts : token.kind ≠ .newline) (within : token.kind ≠ .rightParen) :
    Aligned side (token :: rest) others := by
  have past : PastNewlines (token :: rest) := by
    intro first same
    cases same
    exact counts
  have none : Spaced side ([] ++ token :: rest) others := spaced
  obtain ⟨feeds, follow, rfl, _, allowed, aligned⟩ := none.takeLines .nil past
  have ahead : ∀ first ∈ (token :: rest).head?, first.kind ≠ .rightParen := by
    intro first same
    cases same
    exact within
  rw [(allowed.both bound ahead).mp rfl]
  exact aligned

theorem Spaced.take (spaced : Spaced side (token :: rest) others) (is : token.kind = kind)
    (bound : side ≠ .free) (counts : kind ≠ .newline) (within : kind ≠ .rightParen) :
    ∃ other follow, others = other :: follow ∧ other.kind = kind ∧
      Spaced (side.after kind) rest follow := by
  subst is
  exact (spaced.aligned bound counts within).take rfl

end Taking

/-! ### Changes of newlines -/

section Changing

variable {side : Side} {tokens others : List Token} {token other : Token}

theorem Spaced.nil : Spaced side [] [] := by
  have none : Spaced side ([] ++ []) ([] ++ []) := .mk .nil .nil (.inl Iff.rfl) .nil
  exact none

theorem Spaced.cons (same : other.kind = token.kind) (counts : token.kind ≠ .newline)
    (follow : Spaced (side.after token.kind) tokens others) :
    Spaced side (token :: tokens) (other :: others) := by
  have aligned := Aligned.cons same counts follow
  have none : Spaced side ([] ++ token :: tokens) ([] ++ other :: others) :=
    .mk .nil .nil (.inl Iff.rfl) aligned
  exact none

/-- A run of newlines in the place of another. -/
theorem Spaced.lines {lines feeds : List Token} (newlines : Grammar.Newlines lines)
    (again : Grammar.Newlines feeds) (some : lines ≠ []) (some' : feeds ≠ [])
    (follow : Spaced .opening tokens others) : Spaced side (lines ++ tokens) (feeds ++ others) := by
  obtain ⟨first, first', allowed, aligned⟩ := follow
  have sides : side.run lines = .opening := by
    rw [Side.run_newlines newlines, if_neg some]
  rw [← sides, ← Side.run_append] at aligned
  rw [← List.append_assoc, ← List.append_assoc]
  refine .mk (List.forall_mem_append.mpr ⟨newlines, first⟩)
    (List.forall_mem_append.mpr ⟨again, first'⟩) (.inl ?_) aligned
  simp [some, some']

theorem Spaced.line (newline : token.kind = .newline) (again : other.kind = .newline)
    (follow : Spaced .opening tokens others) : Spaced side (token :: tokens) (other :: others) :=
  Spaced.lines (List.forall_mem_singleton.mpr newline) (List.forall_mem_singleton.mpr again)
    (List.cons_ne_nil _ _) (List.cons_ne_nil _ _) follow

/-- Newlines may be added where such a side is before them or such a token behind. -/
theorem Spaced.insert {feeds : List Token} (spaced : Spaced side tokens others)
    (newlines : Grammar.Newlines feeds)
    (free : side = .free ∨ ∃ token ∈ tokens.head?, token.kind = .rightParen) :
    Spaced side tokens (feeds ++ others) := by
  obtain @⟨_, lines, again, tokens, others, first, first', allowed, aligned⟩ := spaced
  rw [← List.append_assoc]
  refine .mk first (List.forall_mem_append.mpr ⟨newlines, first'⟩) ?_ aligned
  by_cases none : lines = []
  · subst none
    exact .inr ⟨rfl, free⟩
  · have nonempty := allowed.nonempty none
    exact .inl (by simp [none, nonempty])

/-- The same tokens at other places. -/
theorem spaced_of_kinds (same : tokens.map Token.kind = others.map Token.kind) :
    Spaced side tokens others := by
  induction tokens generalizing others side with
  | nil =>
      cases List.map_eq_nil_iff.mp same.symm
      exact .nil
  | cons token tokens ih =>
      obtain ⟨other, others, rfl, first, rest⟩ := List.map_eq_cons_iff.mp same.symm
      by_cases newline : token.kind = .newline
      · exact .line newline (first.trans newline) (ih rest.symm)
      · exact .cons first newline (ih rest.symm)

theorem Spaced.refl (tokens : List Token) : Spaced side tokens tokens :=
  spaced_of_kinds rfl

/-- The same tokens before both. -/
theorem Spaced.behind (before : List Token) (spaced : Spaced (side.run before) tokens others) :
    Spaced side (before ++ tokens) (before ++ others) := by
  induction before generalizing side with
  | nil => exact spaced
  | cons token before ih =>
      have rest : Spaced (side.after token.kind) (before ++ tokens) (before ++ others) := ih spaced
      by_cases newline : token.kind = .newline
      · rw [newline, Side.after_newline] at rest
        exact .line newline newline rest
      · exact .cons rfl newline rest

end Changing

end Token

end ConfigLang
