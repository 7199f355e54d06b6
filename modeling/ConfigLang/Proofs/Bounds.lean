import ConfigLang.Proofs.Soundness
/-!
The lists that bound the repetitions of readers never end them: each repetition takes a token, so
any list longer than the tokens ahead gives the same reply.
-/

set_option autoImplicit false

namespace ConfigLang

namespace Reader

variable {α β : Type} {stop : Position} {tokens rest : List Token}

/-- Every list with more tokens than there are ahead gives the same reply. -/
def Lasting (attempt : List Token → Reader α) : Prop :=
  ∀ ⦃bound other stop tokens⦄, tokens.length < bound.length → tokens.length < other.length →
    attempt bound stop tokens = attempt other stop tokens

theorem Lasting.repeating {attempt : List Token → Reader α} (lasting : Lasting attempt)
    {bound : List Token} (enough : tokens.length < bound.length) :
    repeating attempt stop tokens = attempt bound stop tokens :=
  lasting (Nat.lt_succ_self _) enough

/-- Readers that go on the same from what the first leaves are the same. -/
theorem bind_congr {first : Reader α} {next other : α → Reader β}
    (same : ∀ value left, first stop tokens = .done value left →
      next value stop left = other value stop left) :
    (first >>= next) stop tokens = (first >>= other) stop tokens := by
  change Reader.bind first next stop tokens = Reader.bind first other stop tokens
  unfold Reader.bind
  cases read : first stop tokens with
  | done value left => exact same value left read
  | failed fault left => rfl

theorem bind_congr_first {first other : Reader α} {next : α → Reader β}
    (same : first stop tokens = other stop tokens) :
    (first >>= next) stop tokens = (other >>= next) stop tokens := by
  change Reader.bind first next stop tokens = Reader.bind other next stop tokens
  unfold Reader.bind
  rw [same]

theorem newLines_length {trees : List Tree} (read : newLines stop tokens = .done trees rest) :
    rest.length ≤ tokens.length := by
  obtain ⟨lines, rfl, _⟩ := newLines_done read
  simp

theorem accept_length {kind : Kind} {taken : Bool} (inner : kind ≠ .eof)
    (read : accept kind stop tokens = .done taken rest) : rest.length ≤ tokens.length := by
  rcases accept_done inner read with ⟨_, token, rfl, _⟩ | ⟨_, rfl, _⟩
  · exact Nat.le_succ _
  · exact Nat.le_refl _

end Reader

namespace Tree

open Reader

variable {Value Nested : Grammar.Phrase} {expression block : Reader Tree} {stop : Position}
  {tokens rest : List Token}

/-- A reader of phrases that are not empty takes a token. -/
theorem length_lt_of_reads {α : Type} {reader : Reader α} {Spells : List Token → α → Prop}
    {value : α} (sound : Reads reader Spells)
    (nonempty : ∀ {used value}, Spells used value → used ≠ [])
    (read : reader stop tokens = .done value rest) : rest.length < tokens.length := by
  obtain ⟨used, rfl, phrase⟩ := sound read
  have taken := List.length_pos_iff.mpr (nonempty phrase)
  rw [List.length_append]
  omega

theorem tupleItems_lasting (sound : Reads expression Value) (opens : Grammar.Opens Value) :
    Lasting (tupleItems expression) := by
  intro bound
  induction bound with
  | nil => exact fun _ _ _ enough => absurd enough (Nat.not_lt_zero _)
  | cons _ bound ih =>
      intro other stop tokens enough long
      obtain ⟨_, other, rfl⟩ := List.exists_cons_of_length_pos (Nat.zero_lt_of_lt long)
      rw [List.length_cons] at enough long
      refine bind_congr fun lead left before => ?_
      have atMost := newLines_length before
      rw [sees_bind, sees_bind]
      split
      · rfl
      refine bind_congr fun value after item => bind_congr fun trail behind between =>
        bind_congr fun comma last accepted => ?_
      have taken := length_lt_of_reads sound opens.ne_nil item
      have trailing := newLines_length between
      have separated := accept_length (by decide) accepted
      split
      · exact bind_congr_first (ih (by omega) (by omega))
      · rfl

theorem callItems_lasting (sound : Reads expression Value) (opens : Grammar.Opens Value) :
    Lasting (callItems expression) := by
  intro bound
  induction bound with
  | nil => exact fun _ _ _ enough => absurd enough (Nat.not_lt_zero _)
  | cons _ bound ih =>
      intro other stop tokens enough long
      obtain ⟨_, other, rfl⟩ := List.exists_cons_of_length_pos (Nat.zero_lt_of_lt long)
      rw [List.length_cons] at enough long
      refine bind_congr fun value left item => bind_congr fun trail after between =>
        bind_congr fun comma behind accepted => ?_
      have taken := length_lt_of_reads sound opens.ne_nil item
      have trailing := newLines_length between
      have separated := accept_length (by decide) accepted
      split
      · refine bind_congr fun lead last before => ?_
        have leading := newLines_length before
        rw [sees_bind, sees_bind]
        split
        · rfl
        · exact bind_congr_first (ih (by omega) (by omega))
      · rfl

theorem objectItems_lasting (sound : Reads expression Value) :
    Lasting (objectItems expression) := by
  have nonempty : ∀ {used tree}, Grammar.Element Value used tree → used ≠ [] := by
    intro used tree element
    obtain ⟨⟩ := element
    exact nofun
  intro bound
  induction bound with
  | nil => exact fun _ _ _ enough => absurd enough (Nat.not_lt_zero _)
  | cons _ bound ih =>
      intro other stop tokens enough long
      obtain ⟨_, other, rfl⟩ := List.exists_cons_of_length_pos (Nat.zero_lt_of_lt long)
      rw [List.length_cons] at enough long
      rw [objectItems, objectItems, peek_bind, peek_bind]
      split
      · rfl
      refine bind_congr fun element left item => bind_congr fun comma after accepted =>
        bind_congr fun lines behind between => ?_
      have taken := length_lt_of_reads (objectElement_reads sound) nonempty item
      have separated := accept_length (by decide) accepted
      have trailing := newLines_length between
      split
      · exact bind_congr_first (ih (by omega) (by omega))
      · rfl

theorem projection_length {step : Projection}
    (steps : (ahead stop tokens).kind = .dot ∨ (ahead stop tokens).kind = .leftBracket)
    (taken : projection (ahead stop tokens).kind stop tokens = .done step rest) :
    rest.length < tokens.length := by
  obtain ⟨used, rfl, read⟩ := projection_reads steps taken
  have nonempty : used ≠ [] := by
    cases read with
    | _ => exact nofun
  have shorter := List.length_pos_iff.mpr nonempty
  rw [List.length_append]
  omega

theorem projections_lasting (line height : Nat) (term : Tree) :
    Lasting fun bound => projections line bound height term := by
  intro bound
  induction bound generalizing height term with
  | nil => exact fun _ _ _ enough => absurd enough (Nat.not_lt_zero _)
  | cons _ bound ih =>
      intro other stop tokens enough long
      obtain ⟨_, other, rfl⟩ := List.exists_cons_of_length_pos (Nat.zero_lt_of_lt long)
      rw [List.length_cons] at enough long
      dsimp only
      rw [projections, projections, peek_bind, peek_bind]
      split
      next steps =>
        split
        · rfl
        · refine bind_congr fun step left taken => ?_
          have shorter := projection_length steps taken
          exact ih _ _ (by omega) (by omega)
      next => rfl

theorem item_length {closing : Option Kind} {trees : List Tree} (sound : Reads expression Value)
    (nested : Reads block Nested) (starts : Grammar.Named Nested)
    (read : item expression block closing (ahead stop tokens).kind stop tokens = .done trees rest) :
    rest.length < tokens.length := by
  obtain ⟨used, rfl, nonempty, _⟩ := item_done sound nested starts read
  have taken := List.length_pos_iff.mpr nonempty
  rw [List.length_append]
  omega

theorem blockItems_lasting (sound : Reads expression Value) (nested : Reads block Nested)
    (starts : Grammar.Named Nested) : Lasting (blockItems expression block) := by
  intro bound
  induction bound with
  | nil => exact fun _ _ _ enough => absurd enough (Nat.not_lt_zero _)
  | cons _ bound ih =>
      intro other stop tokens enough long
      obtain ⟨_, other, rfl⟩ := List.exists_cons_of_length_pos (Nat.zero_lt_of_lt long)
      rw [List.length_cons] at enough long
      rw [blockItems, blockItems, peek_bind, peek_bind]
      split
      · rfl
      · refine bind_congr fun trees left read => bind_congr_first ?_
        have taken := item_length sound nested starts read
        exact ih (by omega) (by omega)

end Tree

end ConfigLang
