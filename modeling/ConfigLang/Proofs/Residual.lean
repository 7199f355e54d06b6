import ConfigLang.Proofs.Bounds
import ConfigLang.Proofs.Completeness
import ConfigLang.Proofs.Unlimited
/-!
What may follow the tokens that have been read. A reader is given the language of all that may
stand ahead of it, and leaves the language of what may stand behind the tokens that it takes. Where
it fails, the tokens before the fault can be continued, and the token of the fault does not go on
with them.
-/

set_option autoImplicit false

namespace ConfigLang.Ebnf

open scoped Computability

/-! ### How words begin -/

/-- There is a word in the language. -/
def Viable (language : Language Kind) : Prop :=
  ∃ word, word ∈ language

/-- The words that are not empty begin with kinds that pass a test. -/
def Starts (test : Kind → Prop) (language : Language Kind) : Prop :=
  ∀ kind word, kind :: word ∈ language → test kind

/-- The words begin with kinds that pass a test, and none is empty. -/
structure Begins (test : Kind → Prop) (language : Language Kind) : Prop where
  starts : Starts test language
  proper : [] ∉ language

section Words

variable {test other : Kind → Prop} {first second : Language Kind} {kind : Kind}

theorem viable_one : Viable 1 :=
  ⟨[], Language.nil_mem_one⟩

theorem viable_star (language : Language Kind) : Viable language∗ :=
  ⟨[], Language.nil_mem_kstar language⟩

theorem viable_terminal (passes : test kind) : Viable (terminal test) :=
  ⟨[kind], kind, rfl, passes⟩

theorem viable_mark (kind : Kind) : Viable (mark kind) :=
  viable_terminal rfl

theorem viable_optional (language : Language Kind) : Viable (optional language) :=
  ⟨[], .inl Language.nil_mem_one⟩

theorem Viable.left (viable : Viable first) : Viable (first + second) :=
  viable.imp fun _ => Or.inl

theorem Viable.mul (before : Viable first) (behind : Viable second) : Viable (first * second) := by
  obtain ⟨left, inFirst⟩ := before
  obtain ⟨right, inSecond⟩ := behind
  exact ⟨left ++ right, Language.append_mem_mul inFirst inSecond⟩

theorem Starts.imp (starts : Starts test first) (weaker : ∀ kind, test kind → other kind) :
    Starts other first :=
  fun kind word inside => weaker kind (starts kind word inside)

theorem starts_one : Starts test 1 := by
  intro kind word inside
  cases Language.mem_one _ |>.mp inside

theorem Starts.add (left : Starts test first) (right : Starts test second) :
    Starts test (first + second) :=
  fun kind word inside => inside.elim (left kind word) (right kind word)

/-- A word may begin with the second part where the first is empty. -/
theorem Starts.mul (left : Starts test first) (right : Starts test second) :
    Starts test (first * second) := by
  rintro kind word ⟨front, inFirst, back, inSecond, whole⟩
  cases front with
  | nil =>
      obtain rfl : back = kind :: word := whole
      exact right kind word inSecond
  | cons head front =>
      obtain ⟨rfl, -⟩ := List.cons.inj whole
      exact left head front inFirst

theorem Starts.optional (starts : Starts test first) : Starts test (optional first) :=
  starts_one.add starts

theorem Starts.star (starts : Starts test first) : Starts test first∗ := by
  intro kind word inside
  obtain ⟨words, whole, inner⟩ := Language.mem_kstar.mp inside
  induction words with
  | nil => cases whole
  | cons head words ih =>
      obtain ⟨one, others⟩ := List.forall_mem_cons.mp inner
      cases head with
      | nil => exact ih whole others
      | cons first head =>
          obtain ⟨rfl, -⟩ := List.cons.inj whole
          exact starts _ _ one

theorem begins_terminal {inside : Kind → Prop} (passes : ∀ kind, inside kind → test kind) :
    Begins test (terminal inside) := by
  constructor
  · rintro kind word ⟨_, same, is⟩
    cases same
    exact passes kind is
  · rintro ⟨_, same, _⟩
    cases same

theorem begins_mark (passes : test kind) : Begins test (mark kind) := by
  apply begins_terminal
  rintro _ rfl
  exact passes

theorem begins_mark_self : Begins (· = kind) (mark kind) :=
  begins_mark rfl

theorem begins_mark_ne {another : Kind} (differs : kind ≠ another) :
    Begins (· ≠ another) (mark kind) :=
  begins_mark differs

theorem starts_lines (passes : test .newline) : Starts test lines :=
  (begins_mark passes).starts.star

theorem Begins.imp (begins : Begins test first) (weaker : ∀ kind, test kind → other kind) :
    Begins other first :=
  ⟨begins.starts.imp weaker, begins.proper⟩

theorem Begins.add (left : Begins test first) (right : Begins test second) :
    Begins test (first + second) :=
  ⟨left.starts.add right.starts, fun inside => inside.elim left.proper right.proper⟩

/-- Nothing behind the first part matters where that is not empty. -/
theorem Begins.mul (left : Begins test first) : Begins test (first * second) := by
  constructor
  · rintro kind word ⟨front, inFirst, back, _, whole⟩
    cases front with
    | nil => exact absurd inFirst left.proper
    | cons head front =>
        obtain ⟨rfl, -⟩ := List.cons.inj whole
        exact left.starts head front inFirst
  · rintro ⟨front, inFirst, back, _, whole⟩
    obtain ⟨rfl, -⟩ := List.append_eq_nil_iff.mp whole
    exact left.proper inFirst

end Words

/-! ### Words and tokens ahead -/

/-- The word begins with the kind of the token ahead, or is empty where there is none. -/
def Meets (word : List Kind) (tokens : List Token) : Prop :=
  word.head? = tokens.head?.map Token.kind

theorem Meets.append {word : List Kind} {rest : List Token} (meets : Meets word rest)
    (used : List Token) : Meets (used.map Token.kind ++ word) (used ++ rest) := by
  cases used with
  | nil => exact meets
  | cons token used => rfl

/-- No word begins with the token ahead. -/
def Unmet (language : Language Kind) (tokens : List Token) : Prop :=
  ∀ word ∈ language, ¬Meets word tokens

theorem Starts.unmet {test : Kind → Prop} {language : Language Kind} {token : Token}
    {rest : List Token} (starts : Starts test language) (fails : ¬test token.kind) :
    Unmet language (token :: rest) := by
  intro word inside meets
  obtain ⟨others, rfl⟩ := List.head?_eq_some_iff.mp meets
  exact fails (starts _ _ inside)

theorem Begins.unmet (stop : Position) {test : Kind → Prop} {language : Language Kind}
    {tokens : List Token} (begins : Begins test language)
    (fails : ¬test (Reader.ahead stop tokens).kind) : Unmet language tokens := by
  cases tokens with
  | nil =>
      intro word inside meets
      obtain rfl := List.head?_eq_none_iff.mp meets
      exact begins.proper inside
  | cons token rest => exact begins.starts.unmet fails

/-! ### Residual languages -/

/-- Behind the tokens that were taken, a word of the first language goes on with a word of the
second, as far as it agrees with the token ahead, and every word of the second goes on so. -/
structure Leads (language : Language Kind) (used rest : List Token) (after : Language Kind) :
    Prop where
  sound : ∀ word ∈ after, used.map Token.kind ++ word ∈ language
  complete : ∀ word, Meets word rest → used.map Token.kind ++ word ∈ language → word ∈ after

/-- The tokens that were taken can be continued, but not with the token ahead. -/
structure Offends (language : Language Kind) (used rest : List Token) : Prop where
  viable : ∃ word, used.map Token.kind ++ word ∈ language
  offending : ∀ word, Meets word rest → used.map Token.kind ++ word ∉ language

section Residuals

variable {language middle after first second : Language Kind} {used more rest tokens : List Token}

theorem Leads.refl : Leads language [] rest language :=
  ⟨fun _ inside => inside, fun _ _ inside => inside⟩

theorem Leads.trans (before : Leads language used (more ++ rest) middle)
    (behind : Leads middle more rest after) : Leads language (used ++ more) rest after := by
  constructor
  · intro word inside
    rw [List.map_append, List.append_assoc]
    exact before.sound _ (behind.sound word inside)
  · intro word meets inside
    rw [List.map_append, List.append_assoc] at inside
    exact behind.complete word meets (before.complete _ (meets.append more) inside)

theorem Leads.cons {token : Token} (first : Leads language [token] (more ++ rest) middle)
    (others : Leads middle more rest after) : Leads language (token :: more) rest after :=
  first.trans others

theorem Offends.behind (before : Leads language used (more ++ rest) middle)
    (offends : Offends middle more rest) : Offends language (used ++ more) rest := by
  obtain ⟨word, inside⟩ := offends.viable
  refine ⟨⟨word, ?_⟩, ?_⟩
  · rw [List.map_append, List.append_assoc]
    exact before.sound _ inside
  · intro word meets inside
    rw [List.map_append, List.append_assoc] at inside
    exact offends.offending word meets (before.complete _ (meets.append more) inside)

theorem Offends.of_unmet (viable : Viable language) (unmet : Unmet language rest) :
    Offends language [] rest :=
  ⟨viable, fun word meets inside => unmet word inside meets⟩

/-- Of two alternatives, the one that does not begin with the token ahead is given up. -/
theorem Leads.left (unmet : Unmet second tokens) : Leads (first + second) [] tokens first := by
  constructor
  · exact fun _ inside => .inl inside
  · exact fun word meets inside => inside.resolve_right fun other => unmet word other meets

theorem Leads.right (unmet : Unmet first tokens) : Leads (first + second) [] tokens second := by
  constructor
  · exact fun _ inside => .inr inside
  · exact fun word meets inside => inside.resolve_left fun other => unmet word other meets

/-- A token that passes the test of a terminal is behind it. -/
theorem Leads.terminal {test : Kind → Prop} {token : Token} (passes : test token.kind) :
    Leads (terminal test * after) [token] rest after := by
  constructor
  · exact fun word inside => Language.append_mem_mul ⟨_, rfl, passes⟩ inside
  · rintro word _ ⟨_, ⟨kind, rfl, _⟩, back, inside, whole⟩
    obtain ⟨-, rfl⟩ := List.cons.inj whole
    exact inside

/-- A terminal after which the language goes on, where the alternative begins otherwise. -/
theorem Leads.take {test : Kind → Prop} {token : Token}
    (others : Starts (fun kind => ¬test kind) first) (passes : test token.kind) :
    Leads (first + Ebnf.terminal test * after) [token] rest after :=
  (Leads.right (others.unmet fun fails => fails passes)).trans (.terminal passes)

theorem unmet_of_past {test : Kind → Prop} (past : ∀ token ∈ rest.head?, ¬test token.kind) :
    Unmet (Ebnf.terminal test * language) rest := by
  rintro word ⟨_, ⟨kind, rfl, passes⟩, back, _, rfl⟩ meets
  obtain ⟨token, first, rfl⟩ := Option.map_eq_some_iff.mp meets.symm
  exact past token first passes

end Residuals

/-! ### Alternatives and repetitions -/

theorem terminal_add (test other : Kind → Prop) :
    terminal test + terminal other = terminal fun kind => test kind ∨ other kind := by
  apply Language.ext
  intro word
  constructor
  · rintro (⟨kind, rfl, passes⟩ | ⟨kind, rfl, passes⟩)
    · exact ⟨kind, rfl, .inl passes⟩
    · exact ⟨kind, rfl, .inr passes⟩
  · rintro ⟨kind, rfl, passes | passes⟩
    · exact .inl ⟨kind, rfl, passes⟩
    · exact .inr ⟨kind, rfl, passes⟩

theorem marks_eq (kind other : Kind) :
    mark kind + mark other = terminal fun sign => sign = kind ∨ sign = other :=
  terminal_add _ _

/-- A name or a string. -/
def IsKey (kind : Kind) : Prop :=
  (∃ name, kind = .ident name) ∨ ∃ contents, kind = .string contents

theorem key_eq : key = terminal IsKey :=
  terminal_add _ _

/-- What may be left out, before what follows in any case. -/
theorem optional_mul (first second : Language Kind) :
    optional first * second = second + first * second := by
  rw [optional, add_mul, one_mul]

theorem star_mul (language after : Language Kind) :
    language∗ * after = after + language * (language∗ * after) := by
  nth_rewrite 1 [← Language.one_add_self_mul_kstar_eq_kstar]
  rw [add_mul, one_mul, mul_assoc]

theorem lines_eq : lines = 1 + someLines :=
  (Language.one_add_self_mul_kstar_eq_kstar _).symm

/-- A repeated terminal goes on as long as tokens pass its test, where what follows does not begin
with it. -/
theorem Leads.repeated {test : Kind → Prop} {after : Language Kind} {used rest : List Token}
    (inside : ∀ token ∈ used, test token.kind) (past : ∀ token ∈ rest.head?, ¬test token.kind)
    (others : Starts (fun kind => ¬test kind) after) :
    Leads ((Ebnf.terminal test)∗ * after) used rest after := by
  induction used with
  | nil =>
      rw [star_mul]
      exact .left (unmet_of_past past)
  | cons token used ih =>
      obtain ⟨passes, inside⟩ := List.forall_mem_cons.mp inside
      rw [star_mul]
      exact .cons (.take others passes) (ih inside)

/-! ### Readers -/

open Reader

/-- The fault is that expressions or blocks are nested too deep, or stands at a token that does not
go on with those before it, while these could have been continued. -/
inductive Blames (language : Language Kind) (stop : Position) (tokens : List Token)
    (fault : Fault) : Prop
  | tooDeep (deep : fault.cause = .nestedTooDeep)
  | offends {used rest : List Token} (whole : tokens = used ++ rest)
      (place : fault.place = (ahead stop rest).place) (offends : Offends language used rest)

/-- What a reader has taken leads to the language that goes with its value, and if it fails the
fault is at the first token that offends. -/
inductive Follows {α : Type} (language : Language Kind) (after : α → Language Kind)
    (stop : Position) (tokens : List Token) : Reply α → Prop
  | done {value : α} {used rest : List Token} (whole : tokens = used ++ rest)
      (leads : Leads language used rest (after value)) :
      Follows language after stop tokens (.done value rest)
  | failed {fault : Fault} {rest : List Token} (blames : Blames language stop tokens fault) :
      Follows language after stop tokens (.failed fault rest)

section Readers

variable {α β : Type} {language middle : Language Kind} {stop : Position}
  {used rest tokens : List Token}

theorem Blames.behind {fault : Fault} (leads : Leads language used rest middle)
    (blames : Blames middle stop rest fault) : Blames language stop (used ++ rest) fault := by
  cases blames with
  | tooDeep deep => exact .tooDeep deep
  | @offends more left whole place offends =>
      subst whole
      exact .offends (List.append_assoc _ _ _).symm place (offends.behind leads)

/-- The tokens before those that a reader sees have led to its language. -/
theorem Follows.behind {after : α → Language Kind} {reply : Reply α}
    (leads : Leads language used rest middle) (follows : Follows middle after stop rest reply) :
    Follows language after stop (used ++ rest) reply := by
  cases follows with
  | done whole behind =>
      subst whole
      exact .done (List.append_assoc _ _ _).symm (leads.trans behind)
  | failed blames => exact .failed (blames.behind leads)

/-- The token ahead leads to the language of what is read behind it. -/
theorem Follows.next {after : α → Language Kind} {reply : Reply α} {token : Token}
    (leads : Leads language [token] rest middle) (follows : Follows middle after stop rest reply) :
    Follows language after stop (token :: rest) reply :=
  follows.behind leads

/-- A reader that is done with the token ahead. -/
theorem Follows.took {after : α → Language Kind} {value : α} {token : Token}
    (leads : Leads language [token] rest (after value)) :
    Follows language after stop (token :: rest) (.done value rest) :=
  .done rfl leads

/-- A reader that is done and takes nothing. -/
theorem Follows.stays {after : α → Language Kind} {value : α}
    (leads : Leads language [] tokens (after value)) :
    Follows language after stop tokens (.done value tokens) :=
  .done rfl leads

/-- A smaller language that has all words which begin with the token ahead. -/
theorem Follows.narrow {after : α → Language Kind} {reply : Reply α}
    (leads : Leads language [] tokens middle) (follows : Follows middle after stop tokens reply) :
    Follows language after stop tokens reply :=
  follows.behind leads

/-- A smaller language behind the tokens that were taken, which has all words that begin with the
token ahead there. -/
theorem Follows.settle {between after : α → Language Kind} {reply : Reply α}
    (follows : Follows language between stop tokens reply)
    (leads : ∀ value rest, reply = .done value rest → Leads (between value) [] rest (after value)) :
    Follows language after stop tokens reply := by
  cases follows with
  | failed blames => exact .failed blames
  | @done value used rest whole before =>
      have settled : Leads language (used ++ []) rest (after value) :=
        before.trans (leads value rest rfl)
      rw [List.append_nil] at settled
      exact .done whole settled

theorem Follows.bind {first : Reader α} {next : α → Reader β} {between : α → Language Kind}
    {after : β → Language Kind} (head : Follows language between stop tokens (first stop tokens))
    (tail : ∀ value rest, first stop tokens = .done value rest →
      Follows (between value) after stop rest (next value stop rest)) :
    Follows language after stop tokens ((first >>= next) stop tokens) := by
  cases read : first stop tokens with
  | failed fault rest =>
      rw [bind_of_failed read]
      rw [read] at head
      cases head with
      | failed blames => exact .failed blames
  | done value rest =>
      rw [bind_of_done read]
      rw [read] at head
      cases head with
      | done whole leads =>
          subst whole
          exact (tail value rest read).behind leads

theorem Follows.pure {value : α} :
    Follows language (fun _ => language) stop tokens ((pure value : Reader α) stop tokens) :=
  .stays .refl

theorem Follows.failWith {after : α → Language Kind} {cause : Kind → Cause}
    (viable : Viable language) (unmet : Unmet language tokens) :
    Follows language after stop tokens (failWith cause stop tokens) :=
  .failed (.offends rfl rfl (.of_unmet viable unmet))

theorem Follows.tooDeep {after : α → Language Kind} :
    Follows language after stop tokens (tooDeep stop tokens) :=
  .failed (.tooDeep rfl)

/-- A token that fails the test of a terminal is at fault, whether or not it has been taken. -/
theorem Follows.misses {after : α → Language Kind} {next : Language Kind} {test : Kind → Prop}
    {kind : Kind} {cause : Cause} (passes : test kind) (viable : Viable next)
    (fails : ¬test (ahead stop tokens).kind) :
    Follows (terminal test * next) after stop tokens
      (.failed ⟨(ahead stop tokens).place, cause⟩ rest) := by
  refine .failed (.offends rfl rfl (.of_unmet ?_ ?_))
  · exact (viable_terminal passes).mul viable
  · exact (begins_terminal fun _ is => is).mul.unmet stop fails

/-! ### Single tokens -/

variable {after : Language Kind}

theorem follows_expect {kind : Kind} (inner : kind ≠ .eof) (viable : Viable after) :
    Follows (mark kind * after) (fun _ => after) stop tokens (expect kind stop tokens) := by
  by_cases same : (ahead stop tokens).kind = kind
  · obtain ⟨token, rest, rfl, is⟩ := eq_cons_of_kind same inner
    rw [expect_of_kind is]
    exact .took (.terminal is)
  · rw [expect_of_ne same]
    exact .misses rfl viable same

theorem identifier_of_ne (other : ∀ name, (ahead stop tokens).kind ≠ .ident name) :
    identifier stop tokens = .failed ⟨(ahead stop tokens).place, .noIdentifier⟩ tokens.tail := by
  cases tokens with
  | nil => rfl
  | cons token rest =>
      unfold identifier
      rw [advance_bind_cons]
      cases is : token.kind with
      | ident name => exact absurd is (other name)
      | _ => rfl

theorem follows_identifier (viable : Viable after) :
    Follows (ident * after) (fun _ => after) stop tokens (identifier stop tokens) := by
  by_cases named : ∃ name, (ahead stop tokens).kind = .ident name
  · obtain ⟨name, sees⟩ := named
    obtain ⟨token, rest, rfl, is⟩ := eq_cons_of_kind sees nofun
    rw [identifier_of_kind is]
    exact .took (.terminal ⟨name, is⟩)
  · rw [identifier_of_ne fun name is => named ⟨name, is⟩]
    exact .misses ⟨"", rfl⟩ viable named

theorem follows_accept {kind : Kind} {more : Language Kind} (inner : kind ≠ .eof)
    (others : Starts (· ≠ kind) after) :
    Follows (after + mark kind * more) (fun taken => if taken then more else after) stop tokens
      (accept kind stop tokens) := by
  by_cases same : (ahead stop tokens).kind = kind
  · obtain ⟨token, rest, rfl, is⟩ := eq_cons_of_kind same inner
    rw [accept_of_kind is]
    exact .took (.take others is)
  · rw [accept_of_ne same]
    exact .stays (.left (begins_mark_self.mul.unmet stop same))

theorem follows_lines (others : Starts (· ≠ .newline) after) :
    Follows (lines * after) (fun _ => after) stop tokens (newLines stop tokens) := by
  obtain ⟨lines, rest, rfl, newlines, past, read⟩ := newLines_runs stop tokens
  rw [read]
  exact .done rfl (.repeated newlines past others)

theorem follows_someLines (others : Starts (· ≠ .newline) after)
    (line : (ahead stop tokens).kind = .newline) :
    Follows (someLines * after) (fun _ => after) stop tokens (newLines stop tokens) := by
  obtain ⟨lines, rest, rfl, newlines, past, read⟩ := newLines_runs stop tokens
  rw [read, someLines, mul_assoc]
  cases lines with
  | nil =>
      obtain ⟨token, rest, rfl, is⟩ := eq_cons_of_kind line (by decide)
      exact absurd is (past token rfl)
  | cons token lines =>
      obtain ⟨is, newlines⟩ := List.forall_mem_cons.mp newlines
      exact .done rfl (.cons (.terminal is) (.repeated newlines past others))

/-- Newlines may matter for what follows them. -/
theorem follows_newLines {more : Language Kind} (others : Starts (· ≠ .newline) after)
    (behind : Starts (· ≠ .newline) more) :
    Follows (after + someLines * more) (fun trees => if trees = [] then after else more) stop tokens
      (newLines stop tokens) := by
  obtain ⟨lines, rest, rfl, newlines, past, read⟩ := newLines_runs stop tokens
  rw [read, someLines, mul_assoc]
  cases lines with
  | nil => exact .stays (.left (unmet_of_past past))
  | cons token lines =>
      obtain ⟨is, newlines⟩ := List.forall_mem_cons.mp newlines
      exact .done rfl (.cons (.take others is) (.repeated newlines past behind))

theorem isSome_label? {token : Token} :
    (Tree.label? token).isSome = true ↔ IsKey token.kind := by
  unfold Tree.label? IsKey
  cases token.kind <;> simp

/-- All labels ahead are taken where what follows them does not begin with one. -/
theorem follows_labels (others : Starts (fun kind => ¬IsKey kind) after) :
    Follows (key∗ * after) (fun _ => after) stop tokens (Tree.labels stop tokens) := by
  rw [key_eq]
  refine .done List.takeWhile_append_dropWhile.symm (.repeated ?_ ?_ others)
  · exact fun token member => isSome_label?.mp (List.all_eq_true.mp List.all_takeWhile token member)
  · intro token first key
    have ends := List.head?_dropWhile_not (fun token => (Tree.label? token).isSome) tokens
    rw [Option.mem_def.mp first] at ends
    simp [isSome_label?.mpr key] at ends

end Readers

end ConfigLang.Ebnf
