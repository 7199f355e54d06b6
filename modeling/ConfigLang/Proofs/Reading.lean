import ConfigLang.Proofs.Grammar
/-!
What the readers of single tokens do, and how a reader made of others takes its tokens. A reader
that is done has taken tokens from the front and left the rest as they were.
-/

set_option autoImplicit false

namespace ConfigLang.Reader

variable {α β : Type} {stop : Position} {tokens rest : List Token} {kind : Kind}

/-- The token that a reader sees, which is an end token when there is none left. -/
def ahead (stop : Position) (tokens : List Token) : Token :=
  tokens.head?.getD ⟨.eof, stop⟩

@[simp] theorem ahead_nil : ahead stop [] = ⟨.eof, stop⟩ := rfl

@[simp] theorem ahead_cons (token : Token) : ahead stop (token :: rest) = token := rfl

/-- Only the end token is seen where no token is. -/
theorem eq_cons_of_kind (sees : (ahead stop tokens).kind = kind) (inner : kind ≠ .eof) :
    ∃ token rest, tokens = token :: rest ∧ token.kind = kind := by
  cases tokens with
  | nil => exact absurd sees.symm inner
  | cons token rest => exact ⟨token, rest, rfl, sees⟩

theorem bind_of_done {first : Reader α} {next : α → Reader β} {value : α}
    (read : first stop tokens = .done value rest) :
    (first >>= next) stop tokens = next value stop rest := by
  change Reader.bind first next stop tokens = _
  simp only [Reader.bind, read]

theorem bind_of_failed {first : Reader α} {next : α → Reader β} {fault : Fault}
    (read : first stop tokens = .failed fault rest) :
    (first >>= next) stop tokens = .failed fault rest := by
  change Reader.bind first next stop tokens = _
  simp only [Reader.bind, read]

theorem pure_done_iff {value result : α} :
    (pure value : Reader α) stop tokens = .done result rest ↔ value = result ∧ tokens = rest := by
  rw [pure_eq, Reply.done.injEq]

theorem peek_done_iff {token : Token} :
    peek stop tokens = .done token rest ↔ ahead stop tokens = token ∧ tokens = rest := by
  rw [← Reply.done.injEq]
  rfl

theorem peekSecond_done_iff {second : Option Kind} :
    peekSecond stop tokens = .done second rest ↔
      tokens.tail.head?.map Token.kind = second ∧ tokens = rest := by
  rw [← Reply.done.injEq]
  rfl

theorem advance_done_iff {token : Token} :
    advance stop tokens = .done token rest ↔ ahead stop tokens = token ∧ tokens.tail = rest := by
  rw [← Reply.done.injEq]
  rfl

theorem sees_done_iff {seen : Bool} :
    sees kind stop tokens = .done seen rest ↔
      decide ((ahead stop tokens).kind = kind) = seen ∧ tokens = rest := by
  rw [← Reply.done.injEq]
  rfl

@[simp] theorem peek_bind (next : Token → Reader β) :
    (peek >>= next) stop tokens = next (ahead stop tokens) stop tokens := rfl

@[simp] theorem peekSecond_bind (next : Option Kind → Reader β) :
    (peekSecond >>= next) stop tokens = next (tokens.tail.head?.map Token.kind) stop tokens := rfl

@[simp] theorem advance_bind_cons (token : Token) (next : Token → Reader β) :
    (advance >>= next) stop (token :: rest) = next token stop rest := rfl

@[simp] theorem sees_bind (next : Bool → Reader β) :
    (sees kind >>= next) stop tokens = next ((ahead stop tokens).kind = kind) stop tokens := rfl

theorem failWith_eq (cause : Kind → Cause) :
    (failWith cause : Reader α) stop tokens =
      .failed ⟨(ahead stop tokens).place, cause (ahead stop tokens).kind⟩ tokens := rfl

theorem expect_done_iff {token : Token} (inner : kind ≠ .eof) :
    expect kind stop tokens = .done token rest ↔ tokens = token :: rest ∧ token.kind = kind := by
  unfold expect
  rw [sees_bind]
  cases tokens with
  | nil =>
      simp only [ahead_nil, inner.symm, decide_false, Bool.false_eq_true, ↓reduceIte, failWith_eq]
      simp
  | cons first others =>
      by_cases same : first.kind = kind
      · simp only [ahead_cons, same, decide_true, ↓reduceIte]
        constructor
        · intro read
          cases read
          exact ⟨rfl, same⟩
        · rintro ⟨equal, _⟩
          cases equal
          rfl
      · simp only [ahead_cons, same, decide_false, Bool.false_eq_true, ↓reduceIte, failWith_eq]
        constructor
        · intro read
          cases read
        · rintro ⟨equal, matching⟩
          cases equal
          exact absurd matching same

theorem expect_of_kind {token : Token} (same : token.kind = kind) :
    expect kind stop (token :: rest) = .done token rest := by
  unfold expect
  simp only [sees_bind, ahead_cons, same, decide_true, ↓reduceIte]
  rfl

theorem expect_of_ne (other : (ahead stop tokens).kind ≠ kind) :
    expect kind stop tokens = failWith (.missing kind) stop tokens := by
  unfold expect
  simp only [sees_bind, other, decide_false, Bool.false_eq_true, ↓reduceIte]

theorem accept_of_kind {token : Token} (same : token.kind = kind) :
    accept kind stop (token :: rest) = .done true rest := by
  unfold accept
  simp only [sees_bind, ahead_cons, same, decide_true, ↓reduceIte]
  rfl

theorem accept_of_ne (other : (ahead stop tokens).kind ≠ kind) :
    accept kind stop tokens = .done false tokens := by
  unfold accept
  simp only [sees_bind, other, decide_false, Bool.false_eq_true, ↓reduceIte]
  rfl

/-- A token that may stand ahead is taken, and nothing is taken where it does not stand. -/
theorem accept_done {taken : Bool} (inner : kind ≠ .eof)
    (read : accept kind stop tokens = .done taken rest) :
    (taken = true ∧ ∃ token, tokens = token :: rest ∧ token.kind = kind) ∨
      (taken = false ∧ tokens = rest ∧ (ahead stop tokens).kind ≠ kind) := by
  by_cases same : (ahead stop tokens).kind = kind
  · obtain ⟨token, others, rfl, matching⟩ := eq_cons_of_kind same inner
    rw [accept_of_kind matching] at read
    cases read
    exact .inl ⟨rfl, token, rfl, matching⟩
  · rw [accept_of_ne same] at read
    cases read
    exact .inr ⟨rfl, rfl, same⟩

theorem identifier_done {tree : Tree} (read : identifier stop tokens = .done tree rest) :
    ∃ token name, tokens = token :: rest ∧ token.kind = .ident name ∧
      tree = Grammar.leaf .identifier token := by
  cases tokens with
  | nil => cases read
  | cons token others =>
      unfold identifier at read
      rw [advance_bind_cons] at read
      cases matching : token.kind with
      | ident name =>
          rw [matching] at read
          cases read
          exact ⟨token, name, rfl, matching, rfl⟩
      | _ =>
          rw [matching] at read
          cases read

theorem identifier_of_kind {token : Token} {name : String} (matching : token.kind = .ident name) :
    identifier stop (token :: rest) = .done (Grammar.leaf .identifier token) rest := by
  unfold identifier
  rw [advance_bind_cons, matching]
  rfl

@[simp] theorem single_cons (rule : Rule) (token : Token) :
    single rule stop (token :: rest) = .done (Grammar.leaf rule token) rest := rfl

/-- No newline comes next. -/
def PastNewlines (tokens : List Token) : Prop :=
  ∀ token ∈ tokens.head?, token.kind ≠ .newline

theorem PastNewlines.nil : PastNewlines [] := nofun

theorem newLines_append {lines : List Token} (newlines : Grammar.Newlines lines)
    (past : PastNewlines rest) :
    newLines stop (lines ++ rest) = .done (Grammar.newLines lines) rest := by
  have inside : ∀ token ∈ lines, decide (token.kind = .newline) = true := by
    intro token member
    exact decide_eq_true (newlines token member)
  have takes : rest.takeWhile (fun token => decide (token.kind = .newline)) = [] := by
    cases rest with
    | nil => rfl
    | cons token others => simp [past token rfl]
  have leaves : rest.dropWhile (fun token => decide (token.kind = .newline)) = rest := by
    cases rest with
    | nil => rfl
    | cons token others => simp [past token rfl]
  unfold newLines
  rw [List.takeWhile_append_of_pos inside, List.dropWhile_append_of_pos inside, takes, leaves,
    List.append_nil]
  cases lines with
  | nil => rfl
  | cons first others => rfl

theorem newLines_of_past (past : PastNewlines rest) : newLines stop rest = .done [] rest :=
  newLines_append .nil past

/-- Newlines are read without a fault, up to a token of another kind. -/
theorem newLines_runs (stop : Position) (tokens : List Token) :
    ∃ lines rest, tokens = lines ++ rest ∧ Grammar.Newlines lines ∧ PastNewlines rest ∧
      newLines stop tokens = .done (Grammar.newLines lines) rest := by
  let test (token : Token) : Bool := decide (token.kind = .newline)
  have newlines : Grammar.Newlines (tokens.takeWhile test) := by
    intro token member
    exact of_decide_eq_true (List.all_eq_true.mp List.all_takeWhile token member)
  have past : PastNewlines (tokens.dropWhile test) := by
    intro token first same
    have outside := List.head?_dropWhile_not test tokens
    rw [Option.mem_def.mp first] at outside
    simp [test, same] at outside
  have whole : newLines stop (tokens.takeWhile test ++ tokens.dropWhile test) = _ :=
    newLines_append newlines past
  rw [List.takeWhile_append_dropWhile] at whole
  exact ⟨_, _, List.takeWhile_append_dropWhile.symm, newlines, past, whole⟩

theorem newLines_done {trees : List Tree} (read : newLines stop tokens = .done trees rest) :
    ∃ lines, tokens = lines ++ rest ∧ Grammar.Newlines lines ∧ trees = Grammar.newLines lines ∧
      PastNewlines rest := by
  obtain ⟨lines, left, whole, newlines, past, runs⟩ := newLines_runs stop tokens
  rw [runs] at read
  cases read
  exact ⟨lines, whole, newlines, rfl, past⟩

end ConfigLang.Reader
