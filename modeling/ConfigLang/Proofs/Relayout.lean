import ConfigLang.Proofs.Composition
import ConfigLang.Proofs.Respacing
/-!
Layout does not change what tokens stand for: not where they are, not how many newlines are where
there are newlines, and not newlines behind a comma, an opening parenthesis or a binary operator or
ahead of a closing parenthesis.
-/

set_option autoImplicit false

namespace ConfigLang

open Token (Spaced)

/-- The first leaves of the tree are what it keeps of the tokens before, and the next is this token,
which it keeps as the sign of a binary operator. -/
def Tree.Operates (tree : Tree) (before : List Token) (sign : Token) : Prop :=
  Token.kept none (before ++ [sign]) = Token.kept none before ++ [sign] ∧
    ∃ first rest, tree.leaves .start = first ++ (.binaryOperator, sign) :: rest ∧
      first.map Prod.snd = Token.kept none before

/-- A change of the layout of tokens. -/
inductive Token.Relaid : List Token → List Token → Prop
  /-- The same tokens at other places. -/
  | moved {tokens others : List Token} (same : tokens.map Token.kind = others.map Token.kind) :
      Relaid tokens others
  /-- Newlines in the place of other newlines. -/
  | lines {before lines feeds behind : List Token} (newlines : Grammar.Newlines lines)
      (again : Grammar.Newlines feeds) (nonempty : lines ≠ []) (nonempty' : feeds ≠ []) :
      Relaid (before ++ (lines ++ behind)) (before ++ (feeds ++ behind))
  /-- Newlines where none mean anything. -/
  | behind {before feeds behind : List Token} {token : Token}
      (frees : token.kind = .comma ∨ token.kind = .leftParen) (newlines : Grammar.Newlines feeds) :
      Relaid (before ++ token :: behind) (before ++ token :: (feeds ++ behind))
  | ahead {before feeds behind : List Token} {token : Token} (closes : token.kind = .rightParen)
      (newlines : Grammar.Newlines feeds) :
      Relaid (before ++ token :: behind) (before ++ (feeds ++ token :: behind))
  | operator {before feeds behind : List Token} {sign : Token} {tree : Tree}
      (read : Tree.ofTokens (before ++ sign :: behind) = .ok tree)
      (operates : tree.Operates before sign) (newlines : Grammar.Newlines feeds) :
      Relaid (before ++ sign :: behind) (before ++ sign :: (feeds ++ behind))

namespace Token

/-! ### Tokens before the end -/

variable {side : Side} {tokens others before behind feeds : List Token}

/-- Nothing counts behind an end token. -/
theorem beforeEnd_of_eof (ends : ∃ token ∈ before, token.kind = .eof) (tokens : List Token) :
    beforeEnd (before ++ tokens) = beforeEnd before := by
  induction before with
  | nil =>
      obtain ⟨_, member, _⟩ := ends
      cases member
  | cons token before ih =>
      unfold beforeEnd at ih ⊢
      rw [List.cons_append, List.takeWhile_cons, List.takeWhile_cons]
      split
      next inside =>
        obtain ⟨last, member, eof⟩ := ends
        rcases List.mem_cons.mp member with rfl | member
        · exact absurd eof (of_decide_eq_true inside)
        · rw [ih ⟨last, member, eof⟩]
      next => rfl

theorem beforeEnd_newlines (newlines : Grammar.Newlines feeds) (tokens : List Token) :
    beforeEnd (feeds ++ tokens) = feeds ++ beforeEnd tokens := by
  apply beforeEnd_behind
  intro token member
  rw [newlines token member]
  decide

theorem spaced_beforeEnd
    (spaced : (∀ token ∈ before, token.kind ≠ .eof) →
      Spaced (side.run before) (beforeEnd tokens) (beforeEnd others)) :
    Spaced side (beforeEnd (before ++ tokens)) (beforeEnd (before ++ others)) := by
  by_cases ends : ∃ token ∈ before, token.kind = .eof
  · rw [beforeEnd_of_eof ends, beforeEnd_of_eof ends]
    exact .refl _
  · have inside : ∀ token ∈ before, token.kind ≠ .eof :=
      fun token member eof => ends ⟨token, member, eof⟩
    rw [beforeEnd_behind inside, beforeEnd_behind inside]
    exact .behind before (spaced inside)

theorem spaced_beforeEnd_moved (same : tokens.map Token.kind = others.map Token.kind) :
    Spaced side (beforeEnd tokens) (beforeEnd others) := by
  have kinds : ∀ tokens : List Token, (beforeEnd tokens).map Token.kind =
      (tokens.map Token.kind).takeWhile fun kind => kind ≠ .eof := by
    intro tokens
    rw [List.takeWhile_map]
    rfl
  apply spaced_of_kinds
  rw [kinds, kinds, same]

/-! ### Operators -/

theorem length_marked (tokens : List Token) :
    (marked .opening tokens).length = (kept none tokens).length := by
  rw [← map_snd_marked Side.shows_opening, List.length_map]

theorem kept_append (tokens others : List Token) :
    kept none (tokens ++ others) =
      kept none tokens ++ (marked (Side.opening.run tokens) others).map Prod.snd := by
  rw [← map_snd_marked Side.shows_opening, marked_append, List.map_append,
    map_snd_marked Side.shows_opening]

/-- A token that is kept is marked. -/
theorem marked_cons_of_kept {sign : Token}
    (keeps : kept none (before ++ [sign]) = kept none before ++ [sign]) (rest : List Token) :
    marked (Side.opening.run before) (sign :: rest) =
      ((Side.opening.run before).joins sign.kind, sign) ::
        marked ((Side.opening.run before).after sign.kind) rest := by
  rw [kept_append] at keeps
  have lengths := congrArg List.length (List.append_cancel_left keeps)
  by_cases dropped : (sign.kind.isPunctuation || (Side.opening.run before).splats sign.kind) = true
  · rw [marked, if_pos dropped] at lengths
    simp [marked] at lengths
  · rw [marked, if_neg dropped]

/-- A sign that joins two operands is kept. -/
theorem marked_cons_of_joins {sign : Token} (joins : side.joins sign.kind = true)
    (rest : List Token) :
    marked side (sign :: rest) = (true, sign) :: marked (side.after sign.kind) rest := by
  obtain ⟨rfl, binary⟩ := of_decide_eq_true joins
  rw [marked, Side.keeps_operator binary, if_neg Bool.false_ne_true, joins]

/-- A tree that has a leaf has all of them. -/
theorem marks_of_leaf {tree : Tree} {leaf : Rule × Token}
    (read : Tree.ofTokens tokens = .ok tree) (member : leaf ∈ tree.leaves .start) :
    (tree.leaves .start).map Tree.sign = marked .opening (beforeEnd tokens) := by
  obtain ⟨line, trees, body, rfl⟩ := Tree.ofTokens_beforeEnd read
  obtain ⟨_, spans⟩ := Tree.document_span .opening .body body
  cases some : trees.any Tree.isStatement with
  | true =>
      rw [Grammar.document, if_pos some, ← spans.marks]
      simp
  | false =>
      rw [Grammar.document, if_neg (Bool.eq_false_iff.mp some)] at member
      cases member

/-- The signs of binary operators are those behind an operand. -/
theorem operates_iff {sign : Token} {tree : Tree}
    (read : Tree.ofTokens (before ++ sign :: behind) = .ok tree)
    (inside : ∀ token ∈ before ++ [sign], token.kind ≠ .eof) :
    tree.Operates before sign ↔ (Side.opening.run before).joins sign.kind = true := by
  have whole : beforeEnd (before ++ sign :: behind) = before ++ sign :: beforeEnd behind := by
    have split := beforeEnd_behind inside behind
    simpa only [List.append_assoc, List.cons_append, List.nil_append] using split
  constructor
  · rintro ⟨keeps, first, rest, leaves, same⟩
    have member : (Rule.binaryOperator, sign) ∈ tree.leaves .start := by
      rw [leaves]
      exact List.mem_append_right first List.mem_cons_self
    have marks := marks_of_leaf read member
    rw [whole, marked_append, marked_cons_of_kept keeps, leaves, List.map_append, List.map_cons]
      at marks
    have lengths : (first.map Tree.sign).length = (marked .opening before).length := by
      rw [length_marked, ← same, List.length_map, List.length_map]
    have heads := (List.cons.inj (List.append_inj marks lengths).2).1
    exact (congrArg Prod.fst heads).symm
  · intro joins
    have binary := (of_decide_eq_true joins).2
    have counts : sign.kind ≠ .newline := by
      intro newline
      rw [newline] at binary
      cases binary
    have marks := Tree.ofTokens_marks read ⟨sign, by simp [whole], counts⟩
    rw [whole, marked_append, marked_cons_of_joins joins] at marks
    -- The leaf with this mark holds the token itself, under the production that is marked.
    obtain ⟨first, others, leaves, left, right⟩ := List.map_eq_append_iff.mp marks
    obtain ⟨⟨rule, token⟩, rest, rfl, is, _⟩ := List.map_eq_cons_iff.mp right
    obtain ⟨holds, rfl⟩ := Prod.mk.inj is
    cases of_decide_eq_true holds
    refine ⟨?_, first, rest, leaves, ?_⟩
    · rw [kept_append, marked_cons_of_joins joins]
      rfl
    · rw [← map_snd_marked Side.shows_opening, ← left, List.map_map]
      rfl

/-- What is behind the sign of a binary operator may begin with newlines. -/
theorem run_of_operates {sign : Token} {tree : Tree}
    (read : Tree.ofTokens (before ++ sign :: behind) = .ok tree)
    (operates : tree.Operates before sign)
    (inside : ∀ token ∈ before ++ [sign], token.kind ≠ .eof) :
    Side.opening.run (before ++ [sign]) = .free := by
  obtain ⟨operand, binary⟩ := of_decide_eq_true ((operates_iff read inside).mp operates)
  rw [Side.run_append, operand]
  exact Side.after_operator binary

/-- Newlines behind a token that lets them be there. -/
theorem spaced_beforeEnd_behind {token : Token} (newlines : Grammar.Newlines feeds)
    (free : (∀ next ∈ before ++ [token], next.kind ≠ .eof) → side.run (before ++ [token]) = .free) :
    Spaced side (beforeEnd (before ++ token :: behind))
      (beforeEnd (before ++ token :: (feeds ++ behind))) := by
  rw [List.append_cons before token behind, List.append_cons before token (feeds ++ behind)]
  apply spaced_beforeEnd
  intro inside
  rw [beforeEnd_newlines newlines, free inside]
  exact (Spaced.refl _).insert newlines (.inl rfl)

/-- Tokens in another layout are the same but for newlines. -/
theorem Relaid.spaced (relaid : Relaid tokens others) :
    Spaced .opening (beforeEnd tokens) (beforeEnd others) := by
  cases relaid with
  | moved same => exact spaced_beforeEnd_moved same
  | lines newlines again nonempty nonempty' =>
      apply spaced_beforeEnd
      intro _
      rw [beforeEnd_newlines newlines, beforeEnd_newlines again]
      exact .lines newlines again nonempty nonempty' (.refl _)
  | behind frees newlines =>
      apply spaced_beforeEnd_behind newlines
      intro _
      rw [Side.run_append]
      exact Side.after_free _ frees
  | @ahead _ _ _ token closes newlines =>
      apply spaced_beforeEnd
      intro _
      rw [beforeEnd_newlines newlines]
      refine (Spaced.refl _).insert newlines (.inr ⟨token, ?_, closes⟩)
      simp [beforeEnd, closes]
  | operator read operates newlines =>
      exact spaced_beforeEnd_behind newlines (run_of_operates read operates)

end Token

theorem Document.ofTokens_eq_ok_iff {tokens : List Token} {document : Document} :
    ofTokens tokens = .ok document ↔
      ∃ tree, Tree.ofTokens tokens = .ok tree ∧ Part.Means tree (.document document) := by
  unfold ofTokens
  cases read : Tree.ofTokens tokens with
  | error faults =>
      constructor
      · intro made
        cases made
      · rintro ⟨_, made, _⟩
        cases made
  | ok tree =>
      change (ofTree tree).mapError _ = _ ↔ _
      obtain ⟨result, means⟩ := Part.ofTokens_means read
      rw [ofTree, means]
      constructor
      · intro made
        cases made
        exact ⟨tree, rfl, means⟩
      · rintro ⟨_, same, means'⟩
        cases same
        cases means.symm.trans means'
        rfl

/-- In another layout the tokens of a document are those of the same document. -/
theorem Document.ofTokens_relaid {tokens others : List Token} {document : Document}
    (read : ofTokens tokens = .ok document) (relaid : Token.Relaid tokens others) :
    ofTokens others = .ok document := by
  obtain ⟨tree, read, means⟩ := ofTokens_eq_ok_iff.mp read
  obtain ⟨other, read', alike⟩ := Tree.ofTokens_respaced relaid.spaced read
  obtain ⟨result, means'⟩ := Part.ofTokens_means read'
  cases Part.document_of_alike alike means means'
  exact ofTokens_eq_ok_iff.mpr ⟨other, read', means'⟩

/-- A newline behind the first sign of `a = 1 - -2`, which is that of a binary operator. -/
theorem Document.ofTokens_relaid_operator :
    let before : List Token := [⟨.ident "a", ⟨1, 1⟩⟩, ⟨.assign, ⟨1, 3⟩⟩, ⟨.int 1, ⟨1, 5⟩⟩]
    let sign : Token := ⟨.minus, ⟨1, 7⟩⟩
    let feeds : List Token := [⟨.newline, ⟨1, 8⟩⟩]
    let behind : List Token := [⟨.minus, ⟨1, 9⟩⟩, ⟨.int 2, ⟨1, 10⟩⟩, ⟨.eof, ⟨1, 11⟩⟩]
    let document : Document :=
      ⟨[.assign "a" (.binary .sub (.literal (.int 1)) (.unary .neg (.literal (.int 2))))]⟩
    ofTokens (before ++ sign :: behind) = .ok document ∧
      Token.Relaid (before ++ sign :: behind) (before ++ sign :: (feeds ++ behind)) ∧
      ofTokens (before ++ sign :: (feeds ++ behind)) = .ok document := by
  intro before sign feeds behind document
  have read : ofTokens (before ++ sign :: behind) = .ok document := by decide +kernel
  have found : (Tree.ofTokens (before ++ sign :: behind)).toOption.any (fun tree =>
      tree.leaves .start = [(.identifier, ⟨.ident "a", ⟨1, 1⟩⟩), (.int, ⟨.int 1, ⟨1, 5⟩⟩)] ++
        (.binaryOperator, sign) :: [(.unary, ⟨.minus, ⟨1, 9⟩⟩), (.int, ⟨.int 2, ⟨1, 10⟩⟩)]) =
          true := by
    decide +kernel
  have relaid : Token.Relaid (before ++ sign :: behind) (before ++ sign :: (feeds ++ behind)) := by
    obtain ⟨tree, read, leaves⟩ := Tree.exists_of_any found
    have newlines : Grammar.Newlines feeds := List.forall_mem_singleton.mpr rfl
    exact .operator read ⟨by decide, _, _, of_decide_eq_true leaves, by decide⟩ newlines
  exact ⟨read, relaid, ofTokens_relaid read relaid⟩

end ConfigLang
