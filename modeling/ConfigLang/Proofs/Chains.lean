import ConfigLang.Proofs.Boundaries
import ConfigLang.Proofs.Composition
import ConfigLang.Proofs.Nesting
import ConfigLang.Proofs.RoundTrip
/-!
Chains of operators as they are written. The operands of a chain group to the right, and the steps
of each operand to the left, however long the chain is within the limits.
-/

set_option autoImplicit false

namespace ConfigLang

namespace Written

open Spelling (Spells)

/-! ### Texts and values -/

/-- A text in parentheses that is an expression by itself, in which at most 20 levels of the tree are
inside the parentheses. The closing one is the last character of the text and no part of a
comment. -/
inductive Encloses : String → Expression → Prop
  | mk {inner : String} {opening closing last : Token} {tokens : List Token} {tree : Tree}
      {value : Expression}
      (scanned : Token.ofText ("(" ++ inner ++ ")") = .ok (opening :: (tokens ++ [closing, last])))
      (ends : closing.place = .behind ("(" ++ inner).toList)
      (read : Tree.primary (Tree.expression Tree.maxNesting) last.place
        (opening :: (tokens ++ [closing])) = .done tree [])
      (low : tree.height ≤ 1 + 20) (means : Part.ofTree tree = .ok (.expression value)) :
      Encloses inner value

/-- An int, a string, a name, or an expression in parentheses. -/
inductive Primary where
  | int (digits : String) (value : Int64) (spells : Spells (.int value) digits.toList)
  | string (literal contents : String) (spells : Spells (.string contents) literal.toList)
  | name (word : String) (named : Source.isName word) (free : word ∉ ["true", "false", "null"])
  | group (inner : String) (value : Expression) (encloses : Encloses inner value)

namespace Primary

def text : Primary → String
  | int digits _ _ => digits
  | string literal _ _ => literal
  | name word _ _ => word
  | group inner _ _ => "(" ++ inner ++ ")"

def value : Primary → Expression
  | int _ value _ => .literal (.int value)
  | string _ contents _ => .literal (.string contents)
  | name word _ _ => .identifier word
  | group _ value _ => value

end Primary

/-- `.name`, `.N`, `[N]`, `["s"]`, `.*` or `[*]` -/
inductive Step where
  | attr (name : String) (named : Source.isName name)
  | number (digits : String) (value : Int64) (spells : Spells (.int value) digits.toList)
  | index (digits : String) (value : Int64) (spells : Spells (.int value) digits.toList)
  | key (literal contents : String) (spells : Spells (.string contents) literal.toList)
  | attrSplat
  | fullSplat

namespace Step

def text : Step → String
  | attr name _ => "." ++ name
  | number digits _ _ => "." ++ digits
  | index digits _ _ => "[" ++ digits ++ "]"
  | key literal _ _ => "[" ++ literal ++ "]"
  | attrSplat => ".*"
  | fullSplat => "[*]"

/-- What the step makes of the value that it is taken from. -/
def value (on : Expression) : Step → Expression
  | attr name _ => .getAttr on name
  | number _ value _ | index _ value _ => .getIndex on (.int value)
  | key _ contents _ => .getIndex on (.string contents)
  | attrSplat => .attrSplat on
  | fullSplat => .indexSplat on

end Step

/-- The blank between an int and its first step, which would be read as part of a float. -/
def gap : Primary → List Step → String
  | .int _ _ _, _ :: _ => " "
  | _, _ => ""

/-- Steps one behind the other. -/
def steps : List Step → String
  | [] => ""
  | step :: others => step.text ++ steps others

/-- A primary with perhaps a sign before it and at most a hundred steps behind it. -/
structure Operand where
  sign : Option UnaryOperator
  primary : Primary
  steps : List Step
  few : steps.length ≤ 100

namespace Operand

def text (operand : Operand) : String :=
  operand.sign.elim "" UnaryOperator.symbol ++
    (operand.primary.text ++ (gap operand.primary operand.steps ++ Written.steps operand.steps))

/-- The steps fold to the left over the primary, and the sign is outside of them. -/
def value (operand : Operand) : Expression :=
  let stepped := operand.steps.foldl Step.value operand.primary.value
  operand.sign.elim stepped fun op => .unary op stepped

end Operand

/-- Operands with operators between them. -/
inductive Chain where
  | last (operand : Operand)
  | more (operand : Operand) (op : BinaryOperator) (rest : Chain)

namespace Chain

/-- How many operators there are. -/
def operators : Chain → Nat
  | last _ => 0
  | more _ _ rest => rest.operators + 1

def text : Chain → String
  | last operand => operand.text
  | more operand op rest => operand.text ++ (" " ++ op.symbol ++ " ") ++ rest.text

/-- The operands fold to the right. -/
def value : Chain → Expression
  | last operand => operand.value
  | more operand op rest => .binary op operand.value rest.value

end Chain

/-! ### Scanning -/

open Scan ConfigLang.Part

section Scanning

variable {rest : List Char}

theorem spells_int {value : Int64} {chars : List Char} (spells : Spells (.int value) chars) :
    Spelling.IsDigits chars ∧ value.toInt = Decimal.natural chars := by
  cases spells with
  | mark mark => cases mark
  | int number same => exact ⟨number, same⟩

theorem gives_int {digits : String} {value : Int64} (spells : Spells (.int value) digits.toList)
    (breaks : Breaks rest) : Gives digits (Only (.int value)) rest := by
  obtain ⟨number, same⟩ := spells_int spells
  exact gives_digits number.nonempty number.inside same breaks

theorem gives_literal {literal contents : String}
    (spells : Spells (.string contents) literal.toList) :
    Gives literal (Only (.string contents)) rest := by
  generalize whole : literal.toList = chars at spells
  cases spells with
  | mark mark => cases mark
  | string quotes => exact gives_string quotes whole

theorem next_dot (flag : Bool) (place : Position) (text : List Char) :
    next flag place '.' text = ⟨.token .dot, place.past '.', text⟩ :=
  next_mark flag place rfl fun _ _ => ⟨rfl, nofun⟩

/-- A number behind a dot is an index, also if another dot follows it. -/
theorem gives_number {on : Expression} {digits : String} {value : Int64}
    (spells : Spells (.int value) digits.toList) (ends : EndsName rest) :
    Gives ("." ++ digits) (Source.SpellsStep on (.getIndex on (.int value))) rest := by
  obtain ⟨number, same⟩ := spells_int spells
  obtain ⟨first, others, whole⟩ := List.exists_cons_of_ne_nil number.nonempty
  intro flag place
  have read : next true (place.past '.') first (others ++ rest) =
      .taking (.token (.int value)) (place.past '.') digits.toList rest := by
    rw [next_number (number.inside first (whole ▸ List.mem_cons_self)), ← List.cons_append, ← whole,
      number_behind_dot _ number.inside ends, integer_of_value same]
  refine ⟨false, (place.past '.').pastAll digits.toList, [⟨.dot, place⟩, ⟨.int value, place.past '.'⟩],
    ⟨_, _, .number rfl rfl, by simp [Tree.height_production], means_index_int rfl, rfl⟩, ?_⟩
  have text : ("." ++ digits).toList ++ rest = '.' :: first :: (others ++ rest) := by
    rw [String.toList_append, whole]
    rfl
  rw [text, run_token (next_dot flag place _)]
  change (run true (place.past '.') (first :: (others ++ rest))).prepend _ = _
  rw [run_token read]
  rfl

/-! ### Steps -/

theorem Step.gives (step : Step) (on : Expression) (ends : EndsName rest) :
    Gives step.text (Source.SpellsStep on (step.value on)) rest := by
  have breaks : Breaks (']' :: rest) := Source.breaks_cons (by decide)
  cases step with
  | attr name named => exact Source.gives_attr named ends
  | number digits value spells => exact gives_number spells ends
  | index digits value spells => exact Source.gives_index_int (gives_int spells breaks)
  | key literal contents spells => exact Source.gives_index_string (gives_literal spells)
  | attrSplat => exact Source.gives_attrSplat
  | fullSplat => exact Source.gives_fullSplat

theorem Step.begins (step : Step) : ∃ char more, step.text.toList = char :: more ∧
    continuesName char = false := by
  cases step with
  | attr name => exact ⟨'.', name.toList, String.toList_append, by decide⟩
  | number digits => exact ⟨'.', digits.toList, String.toList_append, by decide⟩
  | index digits => exact ⟨'[', digits.toList ++ [']'], by simp [text], by decide⟩
  | key literal => exact ⟨'[', literal.toList ++ [']'], by simp [text], by decide⟩
  | attrSplat => exact ⟨'.', ['*'], rfl, by decide⟩
  | fullSplat => exact ⟨'[', ['*', ']'], rfl, by decide⟩

/-- No name goes on with a step. -/
theorem endsName_steps (written : List Step) (ends : EndsName rest) :
    EndsName ((steps written).toList ++ rest) := by
  cases written with
  | nil => exact ends
  | cons step others =>
      obtain ⟨char, more, whole, outside⟩ := step.begins
      rw [steps, String.toList_append, whole]
      rintro _ ⟨⟩
      exact outside

/-- Tokens of so many steps that lead from one value to another. Each makes the term two levels
higher. -/
def SpellsSteps (on value : Expression) (count : Nat) (tokens : List Token) : Prop :=
  ∀ line term, Means term (.expression on) → ∃ last, Grammar.Steps line tokens term last ∧
    last.height ≤ max 3 term.height + 2 * count ∧ Means last (.expression value)

theorem gives_steps (written : List Step) (on : Expression) (ends : EndsName rest) :
    Gives (steps written) (SpellsSteps on (written.foldl Step.value on) written.length) rest := by
  induction written generalizing on with
  | nil =>
      refine gives_nothing.imp ?_
      rintro tokens rfl line term means
      exact ⟨term, .none, Nat.le_max_right 3 _, means⟩
  | cons step written ih =>
      have first := step.gives on (endsName_steps written ends)
      refine (first.append (ih (step.value on))).imp ?_
      rintro tokens ⟨used, others, rfl, ⟨taken, access, grammar, short, goes, made⟩, follow⟩
        line term means
      obtain ⟨last, steps, low, means⟩ := follow line _ (means_project means goes made)
      refine ⟨last, .more grammar steps, ?_, means⟩
      simp only [Tree.project, Tree.height_node, Tree.highest_cons, Tree.highest_nil,
        List.length_cons] at low ⊢
      omega

/-! ### Groups -/

theorem next_leftParen (flag : Bool) (place : Position) (text : List Char) :
    next flag place '(' text = ⟨.token .leftParen, place.past '(', text⟩ :=
  next_mark flag place rfl fun _ _ => ⟨rfl, nofun⟩

theorem next_rightParen (flag : Bool) (place : Position) (text : List Char) :
    next flag place ')' text = ⟨.token .rightParen, place.past ')', text⟩ :=
  next_mark flag place rfl fun _ _ => ⟨rfl, nofun⟩

theorem enclosed_toList (inner : String) :
    ("(" ++ inner ++ ")").toList = '(' :: (inner.toList ++ [')']) := by
  simp

/-- What is read between parentheses is the same whatever follows them. -/
theorem gives_enclosed {inner : String} {kinds : List Kind} {last : Bool}
    (comes : Comes [')'] false (inner.toList ++ [')']) kinds last) :
    Gives ("(" ++ inner ++ ")")
      (fun tokens => tokens.map Token.kind = .leftParen :: (kinds ++ [.rightParen])) rest := by
  have elsewhere : Comes (')' :: rest) false (inner.toList ++ ')' :: rest) kinds last := by
    refine comes.instead (by decide) (fun flag => .here) ?_
    intro begins
    exact absurd (begins ')' rfl) (by decide)
  intro flag place
  obtain ⟨stop, tokens, same, scans⟩ := elsewhere.scans (place.past '(')
  refine ⟨false, stop.past ')', ⟨.leftParen, place⟩ :: (tokens ++ [⟨.rightParen, stop⟩]), ?_, ?_⟩
  · simp [same]
  · rw [enclosed_toList, List.cons_append, List.append_assoc, List.singleton_append,
      run_token (next_leftParen flag place _)]
    change (run false (place.past '(') _).prepend _ = _
    rw [scans, run_token (next_rightParen last stop rest), Result.prepend_prepend,
      Result.prepend_prepend]
    rfl

/-- Tokens of a primary whose term stands for a value. -/
def SpellsPrimary (depth : Nat) (value : Expression) (tokens : List Token) : Prop :=
  ∃ children, Grammar.Primary (Grammar.Expr depth) tokens children ∧
    Tree.highest children ≤ 20 ∧
    Means (.node .term (Grammar.line tokens) children) (.expression value)

/-- What is read as an expression in parentheses is one wherever its tokens are, at every depth that
its tree leaves room for. -/
theorem spellsPrimary_of_read {tokens others : List Token} {stop : Position} {tree : Tree}
    {value : Expression} {depth : Nat} (enough : 20 ≤ depth)
    (read : Tree.primary (Tree.expression Tree.maxNesting) stop tokens = .done tree [])
    (low : tree.height ≤ 1 + 20) (means : Part.ofTree tree = .ok (.expression value))
    (same : tokens.map Token.kind = others.map Token.kind) : SpellsPrimary depth value others := by
  have carries : Tree.CarriesTree (fun _ => False) False _ _ := Tree.primary_carries
    (Tree.expression_reads Tree.maxNesting) (Grammar.Expr.opens _) (Tree.expression_carries _)
  have resumes := carries.resumes .nil (Tree.extends_of_kinds same []) stop stop
  rw [read, List.append_nil] at resumes
  generalize again : Tree.primary (Tree.expression Tree.maxNesting) stop others = reply at resumes
  cases resumes with
  | escaped escapes => exact escapes.elim
  | spent allowed => exact allowed.elim
  | @done _ other _ rest alike longer =>
      cases longer
      obtain ⟨used, whole, children, rfl, primary⟩ :=
        Tree.primary_reads (Tree.expression_reads _) (Grammar.Expr.opens _) again
      rw [List.append_nil] at whole
      subst whole
      obtain ⟨part, means, unplaced⟩ := means_alike _ _ _ alike means
      have itself : part = .expression value := by
        cases part with
        | token => cases unplaced
        | _ => exact unplaced.symm
      have height := Tree.Alike.height alike
      rw [Tree.height_node] at height
      have inside : Tree.highest children ≤ 20 := by omega
      refine ⟨children, primary.upTo (fun _ _ expr low => ?_) inside, inside, itself ▸ means⟩
      exact expr.of_height_le (low.trans enough)

/-- The closing parenthesis is where the text between the two has been read. -/
theorem comes_of_enclosed {inner : String} {opening closing last : Token} {tokens : List Token}
    (scanned : Token.ofText ("(" ++ inner ++ ")") = .ok (opening :: (tokens ++ [closing, last])))
    (ends : closing.place = .behind ("(" ++ inner).toList) :
    opening.kind = .leftParen ∧ closing.kind = .rightParen ∧
      ∃ flag, Comes [')'] false (inner.toList ++ [')']) (tokens.map Token.kind) flag := by
  have scan := Token.ofText_eq_ok_iff.mp scanned
  rw [enclosed_toList, run_token (next_leftParen false .start _)] at scan
  change (run false (Position.start.past '(') _).prepend _ = _ at scan
  have inside : opening = ⟨.leftParen, .start⟩ ∧
      run false (Position.start.past '(') (inner.toList ++ [')']) =
        ⟨tokens ++ [closing, last], []⟩ := by
    generalize run false (Position.start.past '(') (inner.toList ++ [')']) = result at scan ⊢
    cases result
    cases scan
    exact ⟨rfl, rfl⟩
  obtain ⟨rfl, alone⟩ := inside
  have each := (run_comes (congrArg Result.faults alone)).2
  rw [alone] at each
  obtain ⟨front, rest, kinds, flag, split, begins, comes⟩ := each closing (by simp)
  rw [ends, ← Position.pastAll_start] at begins
  have reached : (Position.start.past '(').pastAll inner.toList =
      (Position.start.past '(').pastAll front := by
    rw [← begins]
    simp
  obtain ⟨rfl, rfl⟩ := eq_of_pastAll_eq split reached
  obtain ⟨stop, before, same, scans⟩ := comes.scans (Position.start.past '(')
  rw [scans, run_token (next_rightParen flag stop []), run] at alone
  obtain ⟨rfl, last⟩ := List.append_inj' (congrArg Result.tokens alone) rfl
  cases last
  exact ⟨rfl, rfl, flag, same ▸ comes⟩

theorem Encloses.gives {inner : String} {value : Expression} (encloses : Encloses inner value)
    {depth : Nat} (enough : 20 ≤ depth) :
    Gives ("(" ++ inner ++ ")") (SpellsPrimary depth value) rest := by
  cases encloses with
  | mk scanned ends read low means =>
      obtain ⟨opens, closes, flag, comes⟩ := comes_of_enclosed scanned ends
      refine (gives_enclosed comes).imp fun others same => ?_
      exact spellsPrimary_of_read enough read low means (by simp [opens, closes, same])

/-! ### Operands -/

/-- The rest of a text does not go on with the operand before it. -/
def Apart (rest : List Char) : Prop :=
  ∀ char ∈ rest.head?, char = ' '

theorem Apart.nil : Apart [] := by
  rintro _ ⟨⟩

theorem Apart.breaks (apart : Apart rest) : Breaks rest := by
  intro char first
  rw [apart char first]
  decide

/-- What may follow a primary. -/
def Primary.Ends : Primary → List Char → Prop
  | int _ _ _, rest => Breaks rest
  | _, rest => EndsName rest

theorem Primary.ends (primary : Primary) (written : List Step) (apart : Apart rest) :
    primary.Ends ((gap primary written ++ steps written).toList ++ rest) := by
  have ends : EndsName ((steps written).toList ++ rest) :=
    endsName_steps written apart.breaks.endsName
  cases primary with
  | string | name | group =>
      change EndsName (("" ++ steps written).toList ++ rest)
      rwa [String.empty_append]
  | int =>
      cases written with
      | nil => exact apart.breaks
      | cons step others =>
          have blank : Breaks (' ' :: ((steps (step :: others)).toList ++ rest)) :=
            Source.breaks_cons (by decide)
          change Breaks ((" " ++ steps (step :: others)).toList ++ rest)
          rwa [String.toList_append]

theorem Primary.begins (primary : Primary) :
    ∃ char more, primary.text.toList = char :: more ∧ char ≠ '=' := by
  cases primary with
  | int digits value spells =>
      obtain ⟨number, -⟩ := spells_int spells
      obtain ⟨first, others, whole⟩ := List.exists_cons_of_ne_nil number.nonempty
      refine ⟨first, others, whole, ?_⟩
      rintro rfl
      exact absurd (number.inside '=' (whole ▸ List.mem_cons_self)) (by decide)
  | string literal contents spells =>
      change ∃ char more, literal.toList = char :: more ∧ char ≠ '='
      generalize literal.toList = chars at spells
      cases spells with
      | mark mark => cases mark
      | string => exact ⟨'"', _, rfl, by decide⟩
  | name word named =>
      change ∃ char more, word.toList = char :: more ∧ char ≠ '='
      unfold Source.isName at named
      split at named
      next => cases named
      next first others whole =>
        refine ⟨first, others, whole, ?_⟩
        rintro rfl
        cases named
  | group inner => exact ⟨'(', _, enclosed_toList inner, by decide⟩

theorem Primary.gives (primary : Primary) {depth : Nat} (enough : 20 ≤ depth)
    (ends : primary.Ends rest) : Gives primary.text (SpellsPrimary depth primary.value) rest := by
  cases primary with
  | int digits value spells =>
      refine (gives_int spells ends).imp ?_
      rintro tokens ⟨token, rfl, is⟩
      refine ⟨_, .int is, ?_, means_term (.cons (means_int is) rfl .nil)⟩
      simp [Tree.height_production]
  | string literal contents spells =>
      refine (gives_literal spells).imp ?_
      rintro tokens ⟨token, rfl, is⟩
      refine ⟨_, .string is, ?_, means_term_string (.cons (means_string is) rfl .nil)⟩
      simp [Tree.height_production]
  | name word named free =>
      have itself : ofName word = .identifier word := by
        simp only [List.mem_cons, List.not_mem_nil, or_false, not_or] at free
        rw [ofName, if_neg free.1, if_neg free.2.1, if_neg free.2.2]
      refine (gives_name named ends).imp ?_
      rintro tokens ⟨token, rfl, is⟩
      have means := @means_term_name (Grammar.line [token]) _ _
        (.cons (means_identifier is) rfl .nil)
      rw [itself] at means
      exact ⟨_, .name is, by simp [Tree.height_production], means⟩
  | group inner value encloses => exact encloses.gives enough

theorem gives_gap (primary : Primary) (written : List Step) :
    Gives (gap primary written) Nothing rest := by
  cases primary with
  | string | name | group => exact gives_nothing
  | int =>
      cases written with
      | nil => exact gives_nothing
      | cons => exact gives_space

/-- Tokens of a term that stands for a value. -/
def SpellsTerm (depth : Nat) (value : Expression) (tokens : List Token) : Prop :=
  ∃ tree, Grammar.Term (Grammar.Expr depth) tokens tree ∧ tree.height ≤ 221 ∧
    Means tree (.expression value)

/-- A primary and the steps from it. A hundred steps are two hundred levels above the primary. -/
theorem gives_stepped (primary : Primary) {written : List Step} (few : written.length ≤ 100)
    {depth : Nat} (enough : 20 ≤ depth) (apart : Apart rest) :
    Gives (primary.text ++ (gap primary written ++ steps written))
      (SpellsTerm depth (written.foldl Step.value primary.value)) rest := by
  have first := primary.gives enough (primary.ends written apart)
  have follow := (gives_gap primary written).append
    (gives_steps written primary.value apart.breaks.endsName)
  refine (first.append follow).imp ?_
  rintro tokens ⟨start, _, rfl, ⟨children, grammar, low, means⟩, _, others, rfl, rfl, follow⟩
  obtain ⟨last, steps, tall, means⟩ := follow (Grammar.line start) _ means
  refine ⟨last, .mk grammar steps, ?_, means⟩
  rw [Tree.height_node] at tall
  omega

/-- Tokens of an operand that stands for a value. -/
def SpellsOperand (depth : Nat) (value : Expression) (tokens : List Token) : Prop :=
  ∃ tree, Grammar.Operand (Grammar.Expr depth) tokens tree ∧ tree.height ≤ 222 ∧
    Means tree (.expression value)

theorem Operand.gives (operand : Operand) {depth : Nat} (enough : 20 ≤ depth)
    (apart : Apart rest) : Gives operand.text (SpellsOperand depth operand.value) rest := by
  obtain ⟨sign, primary, written, few⟩ := operand
  have term := gives_stepped primary few enough apart
  cases sign with
  | none =>
      change Gives ("" ++ (primary.text ++ _)) _ rest
      rw [String.empty_append]
      refine term.imp ?_
      rintro tokens ⟨tree, grammar, low, means⟩
      exact ⟨tree, .plain grammar, Nat.le_succ_of_le low, means⟩
  | some op =>
      obtain ⟨char, more, whole, other⟩ := primary.begins
      have sign : Gives op.symbol (Source.Signs op)
          ((primary.text ++ (gap primary written ++ Written.steps written)).toList ++ rest) := by
        refine Source.gives_sign op ?_
        rw [String.toList_append, whole]
        rintro _ ⟨⟩
        exact other
      refine (sign.append term).imp ?_
      rintro tokens ⟨_, used, rfl, ⟨sign, rfl, signs, is⟩, tree, grammar, low, means⟩
      refine ⟨_, .signed signs grammar, ?_, means_unary is means⟩
      simp only [Tree.height_node, Tree.height_leaf, Tree.highest_cons, Tree.highest_nil]
      omega

/-! ### Chains -/

/-- Tokens of a chain of so many operators that stands for a value. -/
def SpellsChain (depth operators : Nat) (value : Expression) (tokens : List Token) : Prop :=
  ∃ tree, Grammar.Expr depth tokens tree ∧ tree.height ≤ 222 + 2 * operators ∧
    Means tree (.expression value)

/-- Each operator nests the rest of the chain one level deeper and makes the tree two levels
higher. -/
theorem Chain.gives (chain : Chain) {depth : Nat} (enough : chain.operators + 20 < depth) :
    Gives chain.text (SpellsChain depth chain.operators chain.value) [] := by
  induction chain generalizing depth with
  | last operand =>
      rw [operators] at enough
      obtain ⟨depth, rfl⟩ : ∃ inner, depth = inner + 1 := ⟨depth - 1, by omega⟩
      have deep : 20 ≤ depth := by omega
      refine (operand.gives deep Apart.nil).imp ?_
      rintro tokens ⟨tree, grammar, low, means⟩
      exact ⟨tree, .single grammar, low, means⟩
  | more operand op rest ih =>
      rw [operators] at enough
      obtain ⟨depth, rfl⟩ : ∃ inner, depth = inner + 1 := ⟨depth - 1, by omega⟩
      have apart : Apart ((" " ++ op.symbol ++ " ").toList ++ (rest.text.toList ++ [])) := by
        rw [String.toList_append, String.toList_append]
        rintro _ ⟨⟩
        rfl
      have deep : 20 ≤ depth := by omega
      have right := @ih depth (by omega)
      have left := (operand.gives deep apart).append (Source.gives_spaced (Source.gives_operator op))
      refine (left.append right).imp ?_
      rintro tokens ⟨_, right, rfl, ⟨left, _, rfl, ⟨leftTree, grammar, low, means⟩, sign, rfl, joins,
        is⟩, rightTree, expr, lowRight, meansRight⟩
      rw [List.append_assoc]
      refine ⟨_, Grammar.Operation.binary grammar joins .nil expr, ?_,
        means_binary means is .nil meansRight⟩
      simp only [Grammar.newLines, List.nil_append, Tree.height_node, Tree.highest_cons,
        Tree.highest_nil, Tree.height_production, operators]
      omega

end Scanning

end Written

namespace Document

/-- The tokens of one assignment are read as the assignment. -/
theorem ofTokens_assign {key sign last : Token} {name : String} {used : List Token} {tree : Tree}
    {value : Expression} (named : key.kind = .ident name) (assigns : sign.kind = .assign)
    (expr : Grammar.Expr Tree.maxNesting used tree) (means : Part.Means tree (.expression value))
    (low : tree.height + 3 ≤ Tree.maxTermHeight) (ends : last.kind = .eof) :
    ofTokens (key :: sign :: used ++ [last]) = .ok ⟨[.assign name value]⟩ := by
  have stmt : Grammar.Stmt _ (Grammar.Block Tree.maxNesting) _ _ := .attr named assigns expr
  have body := Grammar.Body.of_item stmt (.none .nil)
  rw [List.append_nil, Grammar.newLines] at body
  refine ofTokens_of_document (Tree.ofTokens_takes body ends ?_)
    ⟨.cons (Part.means_attr named means) rfl .nil, fun unstated => by cases unstated⟩
  refine Nat.le_trans (Tree.height_document_le _ _) ?_
  rw [Tree.maxTermHeight] at low ⊢
  simp only [Tree.height_node, Tree.highest_cons, Tree.highest_nil, Tree.height_production]
  omega

/-- The text of an assignment to a chain is read as the value of the chain. -/
theorem parse_chain (chain : Written.Chain) (short : chain.operators ≤ 100) :
    parse ("v = " ++ chain.text) = .ok ⟨[.assign "v" chain.value]⟩ := by
  have deep : chain.operators + 20 < Tree.maxNesting := by
    rw [Tree.maxNesting]
    omega
  have key : Scan.Gives "v" (Scan.Only (.ident "v")) (" = ".toList ++ (chain.text.toList ++ [])) :=
    Scan.gives_name rfl (Source.breaks_cons (by decide)).endsName
  obtain ⟨_, last, ⟨_, value, rfl, ⟨_, _, rfl, ⟨key, rfl, is⟩, sign, rfl, assigns⟩, tree, expr, low,
    means⟩, ends, scanned⟩ :=
    Source.run_of_gives ((key.append Source.gives_assign).append (chain.gives deep))
  change parse ("v" ++ " = " ++ chain.text) = _
  rw [parse_of_run (Token.ofText_eq_ok_iff.mp scanned)]
  refine ofTokens_assign is assigns expr means ?_ ends
  rw [Tree.maxTermHeight]
  omega

/-- Two numbers behind dots, a step behind an int, and an operator at the end of a line in
parentheses. -/
theorem parse_chain_steps :
    parse "v = -a.0.1 + 2 [\"k\"].* && !(b - # )\nc)[3]" = .ok ⟨[.assign "v"
      (.binary .add (.unary .neg (.getIndex (.getIndex (.identifier "a") (.int 0)) (.int 1)))
        (.binary .and
          (.attrSplat (.getIndex (.literal (.int 2)) (.string "k")))
          (.unary .not
            (.getIndex (.binary .sub (.identifier "b") (.identifier "c")) (.int 3)))))]⟩ := by
  have digit : ∀ {value : Int64} {char : Char}, char.isDigit = true →
      value.toInt = Decimal.natural [char] → Spelling.Spells (.int value) [char] :=
    fun digit same => .int ⟨List.cons_ne_nil _ _, List.forall_mem_singleton.mpr digit⟩ same
  have key : Spelling.Spells (.string "k") "\"k\"".toList :=
    @Spelling.Spells.string ['k'] ['k'] (.plain (by decide) nofun .nil)
  have group : Written.Encloses "b - # )\nc" (.binary .sub (.identifier "b") (.identifier "c")) := by
    have scanned : Token.ofText "(b - # )\nc)" = .ok [⟨.leftParen, ⟨1, 1⟩⟩, ⟨.ident "b", ⟨1, 2⟩⟩,
        ⟨.minus, ⟨1, 4⟩⟩, ⟨.newline, ⟨1, 9⟩⟩, ⟨.ident "c", ⟨2, 1⟩⟩, ⟨.rightParen, ⟨2, 2⟩⟩,
        ⟨.eof, ⟨2, 3⟩⟩] := by decide +kernel
    refine @Written.Encloses.mk _ ⟨.leftParen, ⟨1, 1⟩⟩ ⟨.rightParen, ⟨2, 2⟩⟩ ⟨.eof, ⟨2, 3⟩⟩
      [⟨.ident "b", ⟨1, 2⟩⟩, ⟨.minus, ⟨1, 4⟩⟩, ⟨.newline, ⟨1, 9⟩⟩, ⟨.ident "c", ⟨2, 1⟩⟩] _ _ scanned
      (by decide +kernel) rfl ?_ rfl
    simp
  let first : Written.Operand :=
    ⟨some .neg, .name "a" rfl (by decide),
      [.number "0" 0 (digit rfl rfl), .number "1" 1 (digit rfl rfl)], by simp⟩
  let second : Written.Operand :=
    ⟨none, .int "2" 2 (digit rfl rfl), [.key "\"k\"" "k" key, .attrSplat], by simp⟩
  let third : Written.Operand :=
    ⟨some .not, .group "b - # )\nc" _ group, [.index "3" 3 (digit rfl rfl)], by simp⟩
  exact parse_chain (.more first .add (.more second .and (.last third)))
    (by simp [Written.Chain.operators])

end Document

end ConfigLang
