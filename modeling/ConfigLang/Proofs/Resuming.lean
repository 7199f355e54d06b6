import ConfigLang.Proofs.Bounds
import ConfigLang.Proofs.Places
/-!
Readers on tokens that go on. A reader that is done is done in the same way where the tokens stand
elsewhere and where another line follows the last of them, and a reader of expressions and blocks
that may be nested less deeply is done in the same way unless they are nested too deeply for it.
-/

set_option autoImplicit false

namespace ConfigLang

/-- The kind, where the end of the tokens counts as that of a line. -/
def Kind.orEnd : Kind → Kind
  | .newline => .eof
  | kind => kind

theorem Kind.orEnd_eq {kind other inner : Kind} (same : kind.orEnd = other.orEnd)
    (inside : inner ≠ .newline ∧ inner ≠ .eof) : kind = inner ↔ other = inner := by
  have only : ∀ {kind : Kind}, kind = inner ↔ kind.orEnd = inner := by
    intro kind
    unfold Kind.orEnd
    split
    · exact ⟨fun newline => absurd newline.symm inside.1, fun eof => absurd eof.symm inside.2⟩
    · rfl
  rw [@only kind, @only other, same]

theorem Kind.orEnd_eq_eof {kind : Kind} : kind.orEnd = .eof ↔ kind = .newline ∨ kind = .eof := by
  unfold Kind.orEnd
  split
  · simp
  · simp_all

namespace Reader

variable {α β γ δ : Type}

/-- Tokens of the same kinds and then more tokens. -/
inductive Extends (more : List Token) : List Token → List Token → Prop
  | nil : Extends more [] more
  | cons {token other : Token} {tokens others : List Token} (same : token.kind = other.kind)
      (rest : Extends more tokens others) : Extends more (token :: tokens) (other :: others)

/-- What follows begins with a newline, if anything follows. -/
def NextLine (more : List Token) : Prop :=
  ∀ token ∈ more.head?, token.kind = .newline

theorem NextLine.nil : NextLine [] := nofun

theorem NextLine.cons {token : Token} {more : List Token} (newline : token.kind = .newline) :
    NextLine (token :: more) := by
  intro first head
  cases head
  exact newline

theorem NextLine.ahead {more : List Token} (line : NextLine more) (stop : Position) :
    (ahead stop more).kind.orEnd = .eof := by
  cases more with
  | nil => rfl
  | cons token more => rw [ahead_cons, line token rfl]; rfl

namespace Extends

variable {more tokens others : List Token}

theorem length_le (longer : Extends more tokens others) : tokens.length ≤ others.length := by
  induction longer with
  | nil => exact Nat.zero_le _
  | cons _ _ ih => exact Nat.succ_le_succ ih

theorem ahead (longer : Extends more tokens others) (line : NextLine more)
    (stop stop' : Position) :
    (Reader.ahead stop tokens).kind.orEnd = (Reader.ahead stop' others).kind.orEnd := by
  cases longer with
  | nil => rw [line.ahead, ahead_nil]; rfl
  | cons same => rw [ahead_cons, ahead_cons, same]

/-- The token ahead is of a kind on both, unless the kind is that of an end. -/
theorem second (longer : Extends more tokens others) (line : NextLine more) {kind : Kind}
    (inside : kind ≠ .newline ∧ kind ≠ .eof) :
    tokens.head?.map Token.kind = some kind ↔ others.head?.map Token.kind = some kind := by
  have only : ∀ tokens : List Token, tokens.head?.map Token.kind = some kind ↔
      (Reader.ahead .start tokens).kind = kind := by
    intro tokens
    cases tokens with
    | nil => simp [inside.2.symm]
    | cons => simp
  rw [only, only]
  exact Kind.orEnd_eq (longer.ahead line _ _) inside

/-- The tokens in front are followed by others of the same kinds. -/
theorem split {before behind : List Token} (longer : Extends more (before ++ behind) others) :
    ∃ front rest, others = front ++ rest ∧ before.map Token.kind = front.map Token.kind ∧
      Extends more behind rest := by
  induction before generalizing others with
  | nil => exact ⟨[], others, rfl, rfl, longer⟩
  | cons token before ih =>
      obtain _ | ⟨same, follow⟩ := longer
      obtain ⟨front, rest, rfl, kinds, follow⟩ := ih follow
      exact ⟨_ :: front, rest, rfl, congrArg₂ List.cons same kinds, follow⟩

end Extends

theorem newlines_of_kinds {lines feeds : List Token} (newlines : Grammar.Newlines lines)
    (kinds : lines.map Token.kind = feeds.map Token.kind) : Grammar.Newlines feeds := by
  intro token member
  have kind : token.kind ∈ lines.map Token.kind := by
    rw [kinds]
    exact List.mem_map_of_mem member
  obtain ⟨first, member, same⟩ := List.mem_map.mp kind
  rw [← same, newlines first member]

/-- The reply on tokens and the reply on tokens that extend them. If the first is done then so is
the second, with a value that looks the same, or the second fails for a cause that lets it escape.
With slack, nothing is known where no token is left. -/
inductive Resumes (more : List Token) (Escapes : Cause → Prop) (slack : Prop) (view : α → γ) :
    Reply α → Reply α → Prop
  | done {value result : α} {left rest : List Token} (alike : view value = view result)
      (longer : Extends more left rest) :
      Resumes more Escapes slack view (.done value left) (.done result rest)
  | failed {fault : Fault} {left : List Token} {reply : Reply α} :
      Resumes more Escapes slack view (.failed fault left) reply
  | escaped {fault : Fault} {rest : List Token} {reply : Reply α} (escapes : Escapes fault.cause) :
      Resumes more Escapes slack view reply (.failed fault rest)
  | spent {value : α} {reply : Reply α} (allowed : slack) :
      Resumes more Escapes slack view (.done value []) reply

/-- What one reader does on tokens the other does where they are extended by another line. -/
structure Carries (Escapes : Cause → Prop) (slack : Prop) (view : α → γ)
    (first second : Reader α) : Prop where
  starved : ∀ ⦃stop value left⦄, first stop [] = .done value left → left = []
  resumes : ∀ ⦃more tokens others⦄, NextLine more → Extends more tokens others →
    ∀ stop stop', Resumes more Escapes slack view (first stop tokens) (second stop' others)

variable {Escapes : Cause → Prop} {slack : Prop} {view : α → γ} {look : β → δ}
  {more tokens others : List Token} {stop stop' : Position}

theorem bind_ne_done {first : Reader α} {next : α → Reader β}
    (undone : ∀ value left, first stop tokens ≠ .done value left) (value : β) (left : List Token) :
    (first >>= next) stop tokens ≠ .done value left := by
  intro read
  obtain ⟨middle, between, taken, _⟩ := (bind_eq_done_iff ..).mp read
  exact undone middle between taken

theorem Resumes.of_ne_done {first second : Reply α}
    (undone : ∀ value left, first ≠ .done value left) :
    Resumes more Escapes slack view first second := by
  cases first with
  | done value left => exact absurd rfl (undone value left)
  | failed fault left => exact .failed

variable (view) in
theorem Resumes.bind {first second : Reader α} {next follow : α → Reader β} (line : NextLine more)
    (before : Resumes more Escapes slack view (first stop tokens) (second stop' others))
    (after : ∀ value result, view value = view result →
      Carries Escapes slack look (next value) (follow result)) :
    Resumes more Escapes slack look ((first >>= next) stop tokens)
      ((second >>= follow) stop' others) := by
  change Resumes more Escapes slack look (Reader.bind first next stop tokens)
    (Reader.bind second follow stop' others)
  unfold Reader.bind
  generalize first stop tokens = reply, second stop' others = answer at before
  cases before with
  | done alike longer => exact (after _ _ alike).resumes line longer stop stop'
  | failed => exact .failed
  | escaped escapes => exact .escaped escapes
  | @spent value _ allowed =>
      dsimp only
      cases read : next value stop [] with
      | failed => exact .failed
      | done result left =>
          cases (after value value rfl).starved read
          exact .spent allowed

namespace Carries

theorem bind {first second : Reader α} {next follow : α → Reader β}
    (before : Carries Escapes slack view first second)
    (after : ∀ value result, view value = view result →
      Carries Escapes slack look (next value) (follow result)) :
    Carries Escapes slack look (first >>= next) (second >>= follow) where
  starved := by
    intro stop value left read
    obtain ⟨middle, between, taken, read⟩ := (bind_eq_done_iff ..).mp read
    cases before.starved taken
    exact (after middle middle rfl).starved read
  resumes _ _ _ line longer stop stop' :=
    Resumes.bind view line (before.resumes line longer stop stop') after

/-- Slack is taken up where the tokens cannot end. -/
theorem close {first second : Reader α} {next follow : α → Reader β}
    (before : Carries Escapes True view first second)
    (after : ∀ value result, view value = view result →
      Carries Escapes slack look (next value) (follow result))
    (needs : ∀ value stop result left, next value stop [] ≠ .done result left) :
    Carries Escapes slack look (first >>= next) (second >>= follow) where
  starved := by
    intro stop value left read
    obtain ⟨middle, between, taken, read⟩ := (bind_eq_done_iff ..).mp read
    cases before.starved taken
    exact absurd read (needs middle stop value left)
  resumes := by
    intro more tokens others line longer stop stop'
    have middle := before.resumes line longer stop stop'
    change Resumes more Escapes slack look (Reader.bind first next stop tokens)
      (Reader.bind second follow stop' others)
    unfold Reader.bind
    generalize first stop tokens = reply, second stop' others = answer at middle
    cases middle with
    | done alike longer => exact (after _ _ alike).resumes line longer stop stop'
    | failed => exact .failed
    | escaped escapes => exact .escaped escapes
    | spent => exact .of_ne_done (needs _ stop)

theorem slacken {first second : Reader α} (carries : Carries Escapes False view first second) :
    Carries Escapes slack view first second where
  starved := carries.starved
  resumes := by
    intro more tokens others line longer stop stop'
    have reply := carries.resumes line longer stop stop'
    generalize first stop tokens = reply, second stop' others = answer at reply
    cases reply with
    | done alike longer => exact .done alike longer
    | failed => exact .failed
    | escaped escapes => exact .escaped escapes
    | spent impossible => exact impossible.elim

theorem pure {value result : α} (alike : view value = view result) :
    Carries Escapes slack view (pure value) (pure result) where
  starved := by
    intro stop value left read
    cases read
    rfl
  resumes _ _ _ _ longer _ _ := .done alike longer

theorem ite {holds same : Prop} [Decidable holds] [Decidable same]
    {first second third fourth : Reader α} (iff : holds ↔ same)
    (yes : Carries Escapes slack view first second)
    (no : Carries Escapes slack view third fourth) :
    Carries Escapes slack view (if holds then first else third)
      (if same then second else fourth) := by
  by_cases is : holds
  · rw [if_pos is, if_pos (iff.mp is)]
    exact yes
  · rw [if_neg is, if_neg (mt iff.mpr is)]
    exact no

/-- A reader that is never done carries over to all. -/
theorem of_failing {first second : Reader α}
    (fails : ∀ stop tokens value left, first stop tokens ≠ .done value left) :
    Carries Escapes slack view first second where
  starved stop value left read := absurd read (fails stop [] value left)
  resumes _ tokens _ _ _ stop _ := .of_ne_done (fails stop tokens)

theorem guard {holds same : Prop} [Decidable holds] [Decidable same]
    {first second third fourth : Reader α} (imp : holds → same)
    (yes : Carries Escapes slack view first second)
    (fails : ∀ stop tokens value left, third stop tokens ≠ .done value left) :
    Carries Escapes slack view (if holds then first else third)
      (if same then second else fourth) := by
  by_cases is : holds
  · rw [if_pos is, if_pos (imp is)]
    exact yes
  · rw [if_neg is]
    exact .of_failing fails

/-- A reader may always fail for a cause that lets it escape. -/
theorem of_escaping {first second : Reader α}
    (needs : ∀ stop value left, first stop [] ≠ .done value left)
    (fails : ∀ stop tokens, ∃ fault rest, second stop tokens = .failed fault rest ∧
      Escapes fault.cause) :
    Carries Escapes slack view first second where
  starved stop value left read := absurd read (needs stop value left)
  resumes := by
    intro more tokens others line longer stop stop'
    obtain ⟨fault, rest, failed, escapes⟩ := fails stop' others
    rw [failed]
    exact .escaped escapes

/-- Of a reader that needs a token only the replies on tokens count. -/
theorem of_cons {first second : Reader α}
    (needs : ∀ stop value left, first stop [] ≠ .done value left)
    (inner : ∀ {more tokens others token other}, NextLine more → token.kind = other.kind →
      Extends more tokens others → ∀ stop stop',
        Resumes more Escapes slack view (first stop (token :: tokens))
          (second stop' (other :: others))) :
    Carries Escapes slack view first second where
  starved stop value left read := absurd read (needs stop value left)
  resumes := by
    intro more tokens others line longer stop stop'
    cases longer with
    | nil => exact .of_ne_done (needs stop)
    | cons same rest => exact inner line same rest stop stop'

theorem repeating {attempt again : List Token → Reader α} (lasting : Lasting attempt)
    (carries : ∀ bound, Carries Escapes slack view (attempt bound) (again bound)) :
    Carries Escapes slack view (repeating attempt) (repeating again) where
  starved _ _ _ read := (carries _).starved read
  resumes := by
    intro more tokens others line longer stop stop'
    have enough : tokens.length < (⟨.eof, stop'⟩ :: others : List Token).length :=
      Nat.lt_succ_of_le longer.length_le
    rw [lasting.repeating enough]
    exact (carries _).resumes line longer stop stop'

theorem peek : Carries Escapes slack (Kind.orEnd ∘ Token.kind) peek peek where
  starved := by
    intro stop value left read
    cases read
    rfl
  resumes _ _ _ line longer stop stop' := .done (longer.ahead line stop stop') longer

theorem sees {kind : Kind} (inside : kind ≠ .newline ∧ kind ≠ .eof) :
    Carries Escapes slack id (sees kind) (sees kind) :=
  peek.bind fun _ _ same => .pure (decide_eq_decide.mpr (Kind.orEnd_eq same inside))

theorem accept {kind : Kind} (inside : kind ≠ .newline ∧ kind ≠ .eof) :
    Carries Escapes slack id (accept kind) (accept kind) where
  starved := by
    intro stop value left read
    rcases accept_done inside.2 read with ⟨_, _, impossible, _⟩ | ⟨_, rfl, _⟩
    · cases impossible
    · rfl
  resumes := by
    intro more tokens others line longer stop stop'
    have ahead := Kind.orEnd_eq (longer.ahead line stop stop') inside
    by_cases here : (Reader.ahead stop tokens).kind = kind
    · obtain ⟨token, rest, rfl, is⟩ := eq_cons_of_kind here inside.2
      cases longer with
      | cons same rest =>
        rw [accept_of_kind is, accept_of_kind (same.symm.trans is)]
        exact .done rfl rest
    · rw [accept_of_ne here, accept_of_ne (mt ahead.mpr here)]
      exact .done rfl longer

theorem expect_nil {kind : Kind} (inside : kind ≠ .eof) (stop : Position) (value : Token)
    (left : List Token) : expect kind stop [] ≠ .done value left := by
  intro read
  obtain ⟨impossible, _⟩ := (expect_done_iff inside).mp read
  cases impossible

theorem expect {kind : Kind} (inside : kind ≠ .eof) :
    Carries Escapes slack Token.kind (expect kind) (expect kind) := by
  refine .of_cons (expect_nil inside) ?_
  intro more tokens others token other line same rest stop stop'
  by_cases is : token.kind = kind
  · rw [expect_of_kind is, expect_of_kind (same.symm.trans is)]
    exact .done same rest
  · refine .of_ne_done ?_
    intro value left read
    obtain ⟨here, matching⟩ := (expect_done_iff inside).mp read
    cases here
    exact is matching

theorem identifier : Carries Escapes slack Tree.unplaced identifier identifier := by
  refine .of_cons nofun ?_
  intro more tokens others token other line same rest stop stop'
  cases is : token.kind with
  | ident name =>
      rw [identifier_of_kind is, identifier_of_kind (same.symm.trans is)]
      exact .done (Tree.unplaced_production .identifier same) rest
  | _ =>
      refine .of_ne_done ?_
      intro value left read
      obtain ⟨_, name, here, named, _⟩ := identifier_done read
      cases here
      rw [is] at named
      cases named

theorem newLines : Carries Escapes True (List.map Tree.unplaced) newLines newLines where
  starved := by
    intro stop value left read
    obtain ⟨lines, whole, _⟩ := newLines_done read
    exact (List.append_eq_nil_iff.mp whole.symm).2
  resumes := by
    intro more tokens others line longer stop stop'
    cases read : Reader.newLines stop tokens with
    | failed => exact .failed
    | done trees left =>
      obtain ⟨lines, rfl, newlines, rfl, past⟩ := newLines_done read
      obtain ⟨front, rest, rfl, kinds, longer⟩ := longer.split
      cases longer with
      | nil => exact .spent trivial
      | @cons _ next _ behind same follow =>
        have past' : PastNewlines (next :: behind) := by
          intro token first
          cases first
          rw [← same]
          exact past _ rfl
        rw [newLines_append (newlines_of_kinds newlines kinds) past']
        exact .done (Tree.unplaced_newLines kinds) (.cons same follow)

end Carries

end Reader

namespace Tree

open Reader

variable {Escapes : Cause → Prop} {Value Nested : Grammar.Phrase}
  {expression other block nested : Reader Tree}

/-- What each reader of trees does with trees that differ in places only. -/
abbrev CarriesTree (Escapes : Cause → Prop) (slack : Prop) (first second : Reader Tree) : Prop :=
  Carries Escapes slack unplaced first second

abbrev CarriesTrees (Escapes : Cause → Prop) (slack : Prop) (first second : Reader (List Tree)) :
    Prop :=
  Carries Escapes slack (List.map unplaced) first second

/-! ### Elements between brackets -/

theorem tupleItems_carries (carries : CarriesTree Escapes False expression other)
    (bound : List Token) :
    CarriesTrees Escapes True (tupleItems expression bound) (tupleItems other bound) := by
  induction bound with
  | nil => exact .pure rfl
  | cons _ bound ih =>
      refine .bind .newLines fun lead _ leading => .bind (.sees (by decide)) ?_
      rintro closed _ rfl
      refine .ite Iff.rfl (.pure leading) ?_
      refine .bind carries.slacken fun value _ item => .bind .newLines fun trail _ trailing =>
        .bind (.accept (by decide)) ?_
      rintro comma _ rfl
      refine .ite Iff.rfl (.bind ih fun others _ follow => .pure ?_) (.pure ?_)
      · simp [leading, item, trailing, follow]
      · simp [leading, item, trailing]

theorem expect_bind_nil {α : Type} {kind : Kind} (inside : kind ≠ .eof) (next : Token → Reader α)
    (stop : Position) (value : α) (left : List Token) :
    (expect kind >>= next) stop [] ≠ .done value left :=
  bind_ne_done (Carries.expect_nil inside stop) value left

theorem tuple_carries (sound : Reads expression Value) (opens : Grammar.Opens Value)
    (carries : CarriesTree Escapes False expression other) :
    CarriesTree Escapes False (tuple expression) (tuple other) := by
  refine .bind (.expect (by decide)) fun opening _ _ => .close
    (.repeating (tupleItems_lasting sound opens) (tupleItems_carries carries)) ?_
    fun _ => expect_bind_nil (by decide) _
  intro items result same
  exact .bind (.expect (by decide)) fun _ _ _ => .pure (by simp [same])

/-! ### Arguments -/

theorem callItems_carries (carries : CarriesTree Escapes False expression other)
    (bound : List Token) :
    CarriesTrees Escapes True (callItems expression bound) (callItems other bound) := by
  induction bound with
  | nil => exact .pure rfl
  | cons _ bound ih =>
      refine .bind carries.slacken fun value _ item => .bind .newLines fun trail _ trailing =>
        .bind (.accept (by decide)) ?_
      rintro comma _ rfl
      refine .ite Iff.rfl (.bind .newLines fun lead _ leading => .bind (.sees (by decide)) ?_)
        (.pure ?_)
      · rintro closed _ rfl
        refine .ite Iff.rfl (.pure ?_) (.bind ih fun others _ follow => .pure ?_)
        · simp [item, trailing, leading]
        · simp [item, trailing, leading, follow]
      · simp [item, trailing]

/-- An expression takes a token. -/
theorem expression_nil (sound : Reads expression Value) (opens : Grammar.Opens Value)
    (stop : Position) (value : Tree) (left : List Token) :
    expression stop [] ≠ .done value left := by
  intro read
  exact absurd (length_lt_of_reads sound opens.ne_nil read) (Nat.not_lt_zero _)

theorem expression_bind_nil {α : Type} (sound : Reads expression Value)
    (opens : Grammar.Opens Value) (next : Tree → Reader α) (stop : Position) (value : α)
    (left : List Token) : (expression >>= next) stop [] ≠ .done value left :=
  bind_ne_done (expression_nil sound opens stop) value left

theorem callArguments_carries (sound : Reads expression Value) (opens : Grammar.Opens Value)
    (carries : CarriesTree Escapes False expression other) :
    CarriesTrees Escapes True (callArguments expression) (callArguments other) := by
  refine .bind .peek fun ahead _ same => .ite (Kind.orEnd_eq same (by decide)) (.pure rfl) ?_
  refine .bind (.repeating (callItems_lasting sound opens) (callItems_carries carries)) ?_
  exact fun items result alike => .pure (by simp [alike])

theorem callArguments_bind_nil {α : Type} (sound : Reads expression Value)
    (opens : Grammar.Opens Value) (next : List Tree → Reader α) (stop : Position) (value : α)
    (left : List Token) : (callArguments expression >>= next) stop [] ≠ .done value left := by
  apply bind_ne_done
  intro arguments rest
  have goes : ¬Kind.eof = .rightParen := by decide
  rw [callArguments, peek_bind, ahead_nil, if_neg goes]
  apply bind_ne_done
  exact expression_bind_nil sound opens _ stop

theorem call_carries (sound : Reads expression Value) (opens : Grammar.Opens Value)
    (carries : CarriesTree Escapes False expression other) :
    CarriesTree Escapes False (call expression) (call other) := by
  refine .bind .peek fun _ _ _ => .bind .identifier fun name _ named =>
    .bind (.expect (by decide)) fun _ _ _ => .close .newLines ?_
      fun _ => callArguments_bind_nil sound opens _
  intro lead _ leading
  refine .close (callArguments_carries sound opens carries) ?_
    fun _ => expect_bind_nil (by decide) _
  intro arguments _ same
  exact .bind (.expect (by decide)) fun _ _ _ => .pure (by simp [named, leading, same])

/-! ### Objects -/

theorem objectAssignment_carries {slack : Prop} :
    Carries Escapes slack id objectAssignment objectAssignment := by
  refine .of_cons nofun ?_
  intro more tokens others token next line same rest stop stop'
  rw [objectAssignment, peek_bind, peek_bind, ahead_cons, ahead_cons, same]
  split
  · exact .done rfl rest
  · exact .failed

theorem objectElement_carries (carries : CarriesTree Escapes False expression other) :
    CarriesTree Escapes False (objectElement expression) (objectElement other) := by
  refine .of_cons nofun ?_
  intro more tokens others token next line same rest stop stop'
  rw [objectElement, objectElement, peek_bind, peek_bind, ahead_cons, ahead_cons, same]
  refine Resumes.bind unplaced line ?_ fun key _ keyed =>
    .bind objectAssignment_carries fun _ _ _ => .bind carries fun value _ item =>
      .pure (by simp [keyed, item])
  cases next.kind with
  | ident => exact Carries.identifier.resumes line (.cons same rest) stop stop'
  | string => exact .done (unplaced_production .string same) rest
  | _ => exact .failed

theorem objectItems_carries (carries : CarriesTree Escapes False expression other)
    (bound : List Token) :
    CarriesTrees Escapes True (objectItems expression bound) (objectItems other bound) := by
  induction bound with
  | nil => exact .pure rfl
  | cons _ bound ih =>
      constructor
      · intro stop value left read
        cases read
        rfl
      · intro more tokens others line longer stop stop'
        cases longer with
        | nil => exact .spent trivial
        | @cons token next _ _ same rest =>
            rw [objectItems, objectItems, peek_bind, peek_bind, ahead_cons, ahead_cons, same]
            refine (Carries.ite Iff.rfl (.pure rfl) ?_).resumes line (.cons same rest) stop stop'
            refine .bind (objectElement_carries carries).slacken fun element _ item =>
              .bind (.accept (by decide)) ?_
            rintro comma _ rfl
            refine .bind .newLines fun lines _ between => .ite ?_
              (.bind ih fun others _ follow => .pure ?_) (.pure ?_)
            · have empty := congrArg List.isEmpty between
              simp only [List.isEmpty_map] at empty
              rw [empty]
              rfl
            · simp [item, between, follow]
            · simp [item, between]

theorem object_carries (sound : Reads expression Value)
    (carries : CarriesTree Escapes False expression other) :
    CarriesTree Escapes False (object expression) (object other) := by
  refine .bind (.expect (by decide)) fun opening _ _ => .close .newLines ?_ ?_
  · intro lead _ leading
    refine .close (.repeating (objectItems_lasting sound) (objectItems_carries carries)) ?_
      fun _ => expect_bind_nil (by decide) _
    intro items _ same
    exact .bind (.expect (by decide)) fun _ _ _ => .pure (by simp [leading, same])
  · intro lead stop value left read
    cases read

/-! ### Terms -/

theorem alone_carries {slack : Prop} {first second : Reader Tree}
    (carries : CarriesTree Escapes slack first second) :
    CarriesTrees Escapes slack (alone first) (alone second) :=
  carries.bind fun tree _ same => .pure (by simp [same])

theorem grouped_carries (sound : Reads expression Value) (opens : Grammar.Opens Value)
    (carries : CarriesTree Escapes False expression other) :
    CarriesTrees Escapes False (grouped expression) (grouped other) := by
  refine .of_cons ?_ ?_
  · intro stop value left read
    obtain ⟨_, _, opening, read⟩ := (bind_eq_done_iff ..).mp read
    cases opening
    obtain ⟨_, _, lead, read⟩ := (bind_eq_done_iff ..).mp read
    cases lead
    exact expression_bind_nil sound opens _ stop value left read
  intro more tokens others token next line same rest stop stop'
  rw [grouped, grouped, advance_bind_cons, advance_bind_cons]
  refine (Carries.close .newLines ?_ fun _ => expression_bind_nil sound opens _).resumes
    line rest stop stop'
  intro lead _ leading
  refine .bind carries fun value _ item => .close .newLines ?_
    fun _ => expect_bind_nil (by decide) _
  intro trail _ trailing
  exact .bind (.expect (by decide)) fun _ _ _ => .pure (by simp [leading, item, trailing])

theorem named_carries (sound : Reads expression Value) (opens : Grammar.Opens Value)
    (carries : CarriesTree Escapes False expression other) :
    CarriesTrees Escapes False (named expression) (named other) := by
  refine .of_cons nofun ?_
  intro more tokens others token next line same rest stop stop'
  rw [named, named, peekSecond_bind, peekSecond_bind, List.tail_cons, List.tail_cons]
  exact (Carries.ite (rest.second line (by decide))
    (alone_carries (call_carries sound opens carries))
    (alone_carries .identifier)).resumes line (.cons same rest) stop stop'

theorem primary_carries (sound : Reads expression Value) (opens : Grammar.Opens Value)
    (carries : CarriesTree Escapes False expression other) :
    CarriesTree Escapes False (primary expression) (primary other) := by
  refine .of_cons nofun ?_
  intro more tokens others token next line same rest stop stop'
  rw [primary, primary, peek_bind, peek_bind, ahead_cons, ahead_cons, same]
  refine Resumes.bind (List.map unplaced) line ?_ fun children _ alike =>
    .pure (by simp [alike])
  have both : Extends more (token :: tokens) (next :: others) := .cons same rest
  cases next.kind with
  | int => exact .done (congrArg (fun tree => [tree]) (unplaced_production .int same)) rest
  | float => exact .done (congrArg (fun tree => [tree]) (unplaced_production .float same)) rest
  | string => exact .done (congrArg (fun tree => [tree]) (unplaced_production .string same)) rest
  | leftBracket =>
      exact (alone_carries (tuple_carries sound opens carries)).resumes line both stop stop'
  | leftBrace => exact (alone_carries (object_carries sound carries)).resumes line both stop stop'
  | leftParen => exact (grouped_carries sound opens carries).resumes line both stop stop'
  | ident => exact (named_carries sound opens carries).resumes line both stop stop'
  | _ => exact .failed

/-! ### Projections -/

/-- A step without places. -/
def Projection.unplaced (projection : Projection) : Rule × Tree :=
  (projection.term, projection.step.unplaced)

theorem dotProjection_carries {slack : Prop} :
    Carries Escapes slack Projection.unplaced dotProjection dotProjection := by
  refine .of_cons (fun stop value left read => by cases read) ?_
  intro more tokens others dot sign line same rest stop stop'
  rw [dotProjection, advance_bind_cons, advance_bind_cons, peek_bind, peek_bind]
  cases rest with
  | nil =>
      apply Resumes.of_ne_done
      intro value left read
      cases read
  | @cons token next tokens others same rest =>
      rw [ahead_cons, ahead_cons, same]
      have name : Carries Escapes slack Projection.unplaced
          (do
            let name ← identifier
            return ⟨.getAttrTerm, .node .getAttr dot.place.line [name]⟩)
          (do
            let name ← identifier
            return ⟨.getAttrTerm, .node .getAttr sign.place.line [name]⟩) :=
        .bind .identifier fun name _ named => .pure (by simp [Projection.unplaced, named])
      cases next.kind with
      | star => exact .done (by simp [Projection.unplaced]) rest
      | int =>
          refine .done ?_ rest
          simp [Projection.unplaced, Token.unplaced, same]
      | _ => exact name.resumes line (.cons same rest) stop stop'

theorem bracketProjection_carries :
    Carries Escapes False Projection.unplaced bracketProjection bracketProjection := by
  refine .of_cons (fun stop value left read => by cases read) ?_
  intro more tokens others opening begins line same rest stop stop'
  rw [bracketProjection, advance_bind_cons, advance_bind_cons, peek_bind, peek_bind]
  refine Resumes.bind Projection.unplaced line ?_ fun step _ alike =>
    .bind (.expect (by decide)) fun _ _ _ => .pure alike
  cases rest with
  | nil =>
      apply Resumes.of_ne_done
      intro value left read
      cases read
  | @cons token next tokens others same rest =>
      rw [ahead_cons, ahead_cons, same]
      cases next.kind with
      | star => exact .done (by simp [Projection.unplaced]) rest
      | int | string =>
          refine .done ?_ rest
          simp [Projection.unplaced, Token.unplaced, same]
      | _ => exact .failed

theorem projections_carries (bound : List Token) (line line' height : Nat) {term start : Tree}
    (alike : term.unplaced = start.unplaced) :
    CarriesTree Escapes False (projections line bound height term)
      (projections line' bound height start) := by
  induction bound generalizing height term start with
  | nil => exact .pure alike
  | cons _ bound ih =>
      refine .bind .peek fun ahead seen same => ?_
      have dot : ahead.kind = .dot ↔ seen.kind = .dot := Kind.orEnd_eq same (by decide)
      have bracket : ahead.kind = .leftBracket ↔ seen.kind = .leftBracket :=
        Kind.orEnd_eq same (by decide)
      refine .ite (or_congr dot bracket) (.ite Iff.rfl (.of_failing nofun) ?_) (.pure alike)
      refine .bind (.ite dot dotProjection_carries bracketProjection_carries) ?_
      intro step taken steps
      refine ih _ ?_
      obtain ⟨rule, same⟩ := Prod.mk.inj steps
      simp [project, alike, rule, same]

theorem term_carries (sound : Reads expression Value) (opens : Grammar.Opens Value)
    (carries : CarriesTree Escapes False expression other) :
    CarriesTree Escapes False (term expression) (term other) := by
  refine .bind .peek fun first seen _ => .bind (primary_carries sound opens carries) ?_
  intro start begins alike
  rw [show begins.height = start.height from (Alike.height alike).symm]
  exact .repeating (projections_lasting first.place.line start.height start)
    fun bound => projections_carries bound first.place.line seen.place.line start.height alike

/-! ### Expressions -/

theorem operand_carries (sound : Reads expression Value) (opens : Grammar.Opens Value)
    (carries : CarriesTree Escapes False expression other) :
    CarriesTree Escapes False (operand expression) (operand other) := by
  have term := term_carries sound opens carries
  refine .of_cons nofun ?_
  intro more tokens others token next line same rest stop stop'
  rw [operand, operand, peek_bind, peek_bind, ahead_cons, ahead_cons, same]
  split
  · rw [advance_bind_cons, advance_bind_cons]
    refine (term.bind fun value _ alike => .pure ?_).resumes line rest stop stop'
    simp [alike, Token.unplaced, same]
  · exact term.resumes line (.cons same rest) stop stop'

theorem operation_carries (sound : Reads expression Value) (opens : Grammar.Opens Value)
    (carries : CarriesTree Escapes False expression other) :
    CarriesTree Escapes False (operation expression) (operation other) := by
  refine .bind .peek fun first seen _ => .bind (operand_carries sound opens carries) ?_
  intro left _ before
  constructor
  · intro stop value rest read
    cases read
    rfl
  · intro more tokens others line longer stop stop'
    rw [peek_bind, peek_bind]
    cases longer with
    | nil =>
        have last : (ahead stop' more).kind.isBinaryOperator = false := by
          rcases Kind.orEnd_eq_eof.mp (line.ahead stop') with newline | eof
          · rw [newline]
            rfl
          · rw [eof]
            rfl
        rw [last]
        exact .done before .nil
    | @cons token next _ _ same rest =>
        rw [ahead_cons, ahead_cons, same]
        split
        · rw [advance_bind_cons, advance_bind_cons]
          refine (Carries.close .newLines ?_ fun _ => expression_bind_nil sound opens _).resumes
            line rest stop stop'
          intro lines _ between
          refine carries.bind fun right _ after => .pure ?_
          simp [before, between, after, Token.unplaced, same]
        · exact .done before (.cons same rest)

theorem expression_carries (depth : Nat) :
    CarriesTree Escapes False (Tree.expression depth) (Tree.expression depth) := by
  induction depth with
  | zero => exact .of_failing nofun
  | succ depth ih =>
      exact operation_carries (expression_reads depth) (Grammar.Expr.opens depth) ih

/-- Expressions that may be nested one level less are read alike unless they are nested too
deeply. -/
theorem expression_carries_shallower (depth : Nat) :
    CarriesTree (· = .nestedTooDeep) False (Tree.expression (depth + 1))
      (Tree.expression depth) := by
  induction depth with
  | zero =>
      exact .of_escaping (expression_nil (expression_reads 1) (Grammar.Expr.opens 1))
        fun _ _ => ⟨_, _, rfl, rfl⟩
  | succ depth ih =>
      exact operation_carries (expression_reads _) (Grammar.Expr.opens _) ih

/-! ### Statements -/

theorem attr_carries (carries : CarriesTree Escapes False expression other) :
    CarriesTree Escapes False (attr expression) (attr other) :=
  .bind .peek fun _ _ _ => .bind .identifier fun key _ named =>
    .bind (.expect (by decide)) fun _ _ _ => .bind carries fun value _ item =>
      .pure (by simp [named, item])

theorem clause_carries (carries : CarriesTree Escapes False expression other)
    (inner : CarriesTree Escapes False block nested)
    (needs : ∀ stop tree left, block stop [] ≠ .done tree left) :
    CarriesTree Escapes False (clause expression block) (clause other nested) := by
  refine .of_cons needs ?_
  intro more tokens others token next line same rest stop stop'
  rw [clause, clause, peekSecond_bind, peekSecond_bind, List.tail_cons, List.tail_cons]
  exact (Carries.ite (rest.second line (by decide)) (attr_carries carries) inner).resumes
    line (.cons same rest) stop stop'

/-- Where a statement may end at a newline or the end it may also end at more. -/
theorem statement_carries {closing closing' : Option Kind}
    (weaker : closing = none ∨ closing = closing')
    (carries : CarriesTree Escapes False expression other)
    (inner : CarriesTree Escapes False block nested)
    (needs : ∀ stop tree left, block stop [] ≠ .done tree left) :
    CarriesTree Escapes False (statement expression block closing)
      (statement other nested closing') := by
  refine .bind (clause_carries carries inner needs) fun tree result alike =>
    .bind .peek fun ahead seen same => .guard ?_ (.pure alike) nofun
  have ends : ahead.kind = .newline ∨ ahead.kind = .eof →
      seen.kind = .newline ∨ seen.kind = .eof := by
    intro last
    exact Kind.orEnd_eq_eof.mp (same.symm.trans (Kind.orEnd_eq_eof.mpr last))
  rintro (newline | eof | closes)
  · exact or_assoc.mp (.inl (ends (.inl newline)))
  · exact or_assoc.mp (.inl (ends (.inr eof)))
  · by_cases last : ahead.kind = .newline ∨ ahead.kind = .eof
    · exact or_assoc.mp (.inl (ends last))
    · have inside := not_or.mp last
      have kind : seen.kind = ahead.kind := (Kind.orEnd_eq same inside).mp rfl
      rcases weaker with rfl | rfl
      · cases closes
      · exact .inr (.inr (by rw [kind, closes]))

theorem label?_alike {token next : Token} (same : token.kind = next.kind) :
    (label? token).map unplaced = (label? next).map unplaced := by
  unfold label?
  rw [same]
  cases next.kind with
  | ident => exact congrArg some (unplaced_production .identifier same)
  | string => exact congrArg some (unplaced_production .string same)
  | _ => rfl

theorem labels_carries : CarriesTrees Escapes False labels labels where
  starved := by
    intro stop value left read
    cases read
    rfl
  resumes := by
    intro more tokens others line longer stop stop'
    unfold labels
    induction longer with
    | nil =>
        have unlabelled : ∀ token ∈ more.head?, label? token = none := by
          intro token first
          rw [label?, line token first]
        cases more with
        | nil => exact .done rfl .nil
        | cons token more =>
            rw [List.takeWhile_cons_of_neg, List.dropWhile_cons_of_neg]
            · exact .done rfl .nil
            · simp [unlabelled token rfl]
            · simp [unlabelled token rfl]
    | @cons token next tokens others same rest ih =>
        have labelled := label?_alike same
        cases first : label? token with
        | none =>
            rw [first] at labelled
            have unlabelled := Option.map_eq_none_iff.mp labelled.symm
            simp only [List.takeWhile_cons, List.dropWhile_cons, first, unlabelled]
            exact .done rfl (.cons same rest)
        | some tree =>
            rw [first] at labelled
            obtain ⟨result, second, alike⟩ := Option.map_eq_some_iff.mp labelled.symm
            simp only [List.takeWhile_cons, List.dropWhile_cons, first, second,
              Option.isSome_some, ↓reduceIte, List.filterMap_cons]
            generalize (tokens.takeWhile _).filterMap label? = trees, tokens.dropWhile _ = left,
              (others.takeWhile _).filterMap label? = results, others.dropWhile _ = rest at ih
            cases ih with
            | done others left => exact .done (by simp [alike, others]) left
            | spent impossible => exact impossible.elim

theorem item_carries {closing closing' : Option Kind}
    (weaker : closing = none ∨ closing = closing')
    (carries : CarriesTree Escapes False expression other)
    (inner : CarriesTree Escapes False block nested)
    (needs : ∀ stop tree left, block stop [] ≠ .done tree left) (kind : Kind) :
    CarriesTrees Escapes True (item expression block closing kind)
      (item other nested closing' kind) :=
  .ite Iff.rfl .newLines (alone_carries (statement_carries weaker carries inner needs)).slacken

theorem blockItems_carries (carries : CarriesTree Escapes False expression other)
    (inner : CarriesTree Escapes False block nested)
    (needs : ∀ stop tree left, block stop [] ≠ .done tree left) (bound : List Token) :
    CarriesTrees Escapes True (blockItems expression block bound)
      (blockItems other nested bound) := by
  induction bound with
  | nil => exact .pure rfl
  | cons _ bound ih =>
      constructor
      · intro stop value left read
        cases read
        rfl
      · intro more tokens others line longer stop stop'
        cases longer with
        | nil => exact .spent trivial
        | @cons token next _ _ same rest =>
            rw [blockItems, blockItems, peek_bind, peek_bind, ahead_cons, ahead_cons, same]
            refine (Carries.ite Iff.rfl (.pure rfl) ?_).resumes line (.cons same rest) stop stop'
            refine .bind (item_carries (.inr rfl) carries inner needs _) fun trees _ first =>
              .bind ih fun others _ follow => .pure ?_
            simp [first, follow]

theorem labelledBlock_carries (sound : Reads expression Value) (deeper : Reads block Nested)
    (starts : Grammar.Named Nested) (carries : CarriesTree Escapes False expression other)
    (inner : CarriesTree Escapes False block nested)
    (needs : ∀ stop tree left, block stop [] ≠ .done tree left) :
    CarriesTree Escapes False (labelledBlock expression block) (labelledBlock other nested) := by
  refine .bind .peek fun first seen _ => .bind .identifier fun name _ named =>
    .bind labels_carries fun labels _ labelled => .bind (.expect (by decide)) fun _ _ _ =>
      .bind .peek fun _ _ _ => .close (.repeating (blockItems_lasting sound deeper starts)
        (blockItems_carries carries inner needs)) ?_ fun _ => expect_bind_nil (by decide) _
  intro items _ same
  refine .bind (.expect (by decide)) fun _ _ _ => .pure ?_
  simp only [unplaced_node, List.map_append, List.map_cons, named, labelled]
  rw [show (body _ items).map unplaced = _ from unplaced_body _ _ same]

/-- A block takes a token. -/
theorem block_nil (depth : Nat) (stop : Position) (tree : Tree) (left : List Token) :
    Tree.block depth stop [] ≠ .done tree left := by
  cases depth with
  | zero => exact nofun
  | succ depth => exact nofun

theorem block_carries (depth : Nat) :
    CarriesTree Escapes False (Tree.block depth) (Tree.block depth) := by
  induction depth with
  | zero => exact .of_failing nofun
  | succ depth ih =>
      exact labelledBlock_carries (expression_reads depth) (block_reads depth)
        (Grammar.Block.named depth) (expression_carries depth) ih (block_nil depth)

theorem block_carries_shallower (depth : Nat) :
    CarriesTree (· = .nestedTooDeep) False (Tree.block (depth + 1)) (Tree.block depth) := by
  induction depth with
  | zero => exact .of_escaping (block_nil 1) fun _ _ => ⟨_, _, rfl, rfl⟩
  | succ depth ih =>
      exact labelledBlock_carries (expression_reads _) (block_reads _)
        (Grammar.Block.named _) (expression_carries_shallower depth) ih (block_nil _)

end Tree

end ConfigLang
