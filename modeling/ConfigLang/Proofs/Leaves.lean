import ConfigLang.Proofs.Soundness
/-!
The tokens that a tree keeps. The leaves of a tree are the tokens of its document from left to
right, but for the punctuation and the stars of splats. What is to the left of a token tells
whether it is a leaf, and whether it joins two operands.
-/

set_option autoImplicit false

namespace ConfigLang

namespace Kind

/-- The kinds that no tree has a leaf of. -/
def isPunctuation : Kind → Bool
  | assign | colon | comma | dot => true
  | leftParen | rightParen | leftBrace | rightBrace | leftBracket | rightBracket => true
  | _ => false

/-- Whether a token leaves no leaf where this is the kind of the token directly before it. A star
behind a dot or an opening bracket is a splat. -/
def isDropped (previous : Option Kind) (kind : Kind) : Bool :=
  kind.isPunctuation || kind = star ∧ (previous = some dot ∨ previous = some leftBracket)

/-- The kinds that an operand may end with, but for the star of a splat. -/
def closesOperand : Kind → Bool
  | int _ | float _ | ident _ | string _ => true
  | rightParen | rightBrace | rightBracket => true
  | _ => false

end Kind

namespace Token

/-- The tokens without those that leave no leaf. -/
def kept (previous : Option Kind) : List Token → List Token
  | [] => []
  | token :: rest =>
    if token.kind.isDropped previous then kept (some token.kind) rest
    else token :: kept (some token.kind) rest

/-- The tokens before the first end token. -/
def beforeEnd (tokens : List Token) : List Token :=
  tokens.takeWhile fun token => token.kind ≠ .eof

theorem beforeEnd_behind {before : List Token} (inside : ∀ token ∈ before, token.kind ≠ .eof)
    (tokens : List Token) : beforeEnd (before ++ tokens) = before ++ beforeEnd tokens :=
  List.takeWhile_append_of_pos fun token member => decide_eq_true (inside token member)

end Token

namespace Tree

mutual

/-- The tokens of a tree from left to right, each with the production that holds it. -/
def leaves (holder : Rule) : Tree → List (Rule × Token)
  | leaf token => [(holder, token)]
  | node rule _ children => leavesAll rule children

def leavesAll (holder : Rule) : List Tree → List (Rule × Token)
  | [] => []
  | child :: rest => leaves holder child ++ leavesAll holder rest

end

/-- The tokens of a tree from left to right. -/
def tokens (tree : Tree) : List Token :=
  (tree.leaves .start).map Prod.snd

end Tree

/-! ### What is to the left of a token -/

/-- What a token stands behind, as far as this decides what it is there for. -/
inductive Side where
  /-- The beginning of something. -/
  | opening
  /-- A comma, an opening parenthesis or an operator between two operands. -/
  | free
  /-- An operand. -/
  | operand
  | dot
  | bracket
deriving DecidableEq, Repr

namespace Side

/-- Whether a token of this kind is the star of a splat. -/
def splats (side : Side) (kind : Kind) : Bool :=
  kind = .star ∧ (side = dot ∨ side = bracket)

/-- Whether a token of this kind joins two operands. -/
def joins (side : Side) (kind : Kind) : Bool :=
  side = operand ∧ kind.isBinaryOperator

/-- The side behind a token. -/
def after (side : Side) (kind : Kind) : Side :=
  if kind.closesOperand || side.splats kind then operand
  else if kind = .dot then dot
  else if kind = .leftBracket then bracket
  else if kind = .comma || kind = .leftParen || side.joins kind then free
  else opening

/-- The side behind tokens. -/
def run (side : Side) (tokens : List Token) : Side :=
  tokens.foldl (fun side token => side.after token.kind) side

@[simp] theorem run_nil (side : Side) : side.run [] = side := rfl

@[simp] theorem run_cons (side : Side) (token : Token) (tokens : List Token) :
    side.run (token :: tokens) = (side.after token.kind).run tokens := rfl

@[simp] theorem run_append (side : Side) (first second : List Token) :
    side.run (first ++ second) = (side.run first).run second :=
  List.foldl_append

theorem after_newline (side : Side) : side.after .newline = opening := by
  cases side with
  | _ => rfl

theorem after_dot (side : Side) : side.after .dot = dot := by
  cases side with
  | _ => rfl

theorem after_leftBracket (side : Side) : side.after .leftBracket = bracket := by
  cases side with
  | _ => rfl

theorem after_leftBrace (side : Side) : side.after .leftBrace = opening := by
  cases side with
  | _ => rfl

theorem after_free (side : Side) {kind : Kind} (frees : kind = .comma ∨ kind = .leftParen) :
    side.after kind = free := by
  rcases frees with rfl | rfl
  · cases side with
    | _ => rfl
  · cases side with
    | _ => rfl

theorem after_closing (side : Side) {kind : Kind} (closes : kind.closesOperand = true) :
    side.after kind = operand := by
  rw [after, closes, Bool.true_or, if_pos rfl]

/-- An operator behind an operand joins it to another. -/
theorem after_operator {kind : Kind} (joins : kind.isBinaryOperator = true) :
    operand.after kind = free := by
  cases kind with
  | plus | minus | star | slash | percent | equal | notEqual | less | lessEqual | greater
  | greaterEqual | and | or => rfl
  | _ => cases joins

/-- An operator between two operands is a leaf. -/
theorem keeps_operator {kind : Kind} (joins : kind.isBinaryOperator = true) :
    (kind.isPunctuation || operand.splats kind) = false := by
  cases kind with
  | plus | minus | star | slash | percent | equal | notEqual | less | lessEqual | greater
  | greaterEqual | and | or => rfl
  | _ => cases joins

theorem joins_of_not {side : Side} {kind : Kind} (other : kind.isBinaryOperator = false) :
    side.joins kind = false := by
  simp [joins, other]

/-- Behind newlines there is no operand, unless there are no newlines. -/
theorem run_newlines {side : Side} {lines : List Token} (newlines : Grammar.Newlines lines) :
    side.run lines = if lines = [] then side else opening := by
  induction lines generalizing side with
  | nil => rfl
  | cons line lines ih =>
      obtain ⟨newline, newlines⟩ := List.forall_mem_cons.mp newlines
      rw [run_cons, newline, after_newline, ih newlines, ite_self, if_neg (List.cons_ne_nil _ _)]

theorem run_newlines_ne {side : Side} {lines : List Token} (fresh : side ≠ operand)
    (newlines : Grammar.Newlines lines) : side.run lines ≠ operand := by
  rw [run_newlines newlines]
  split
  · exact fresh
  · exact nofun

theorem opening_ne : opening ≠ operand := nofun

theorem free_ne : free ≠ operand := nofun

theorem bracket_ne : bracket ≠ operand := nofun

/-- The side tells whether a dot or an opening bracket stands directly before. -/
def Shows (side : Side) (previous : Option Kind) : Prop :=
  (side = dot ↔ previous = some .dot) ∧ (side = bracket ↔ previous = some .leftBracket)

theorem shows_opening : Shows opening none := by
  simp [Shows]

theorem after_eq_dot_iff (side : Side) (kind : Kind) : side.after kind = dot ↔ kind = .dot := by
  by_cases is : kind = .dot
  · subst is
    cases side with
    | _ => decide
  · unfold after
    grind

theorem after_eq_bracket_iff (side : Side) (kind : Kind) :
    side.after kind = bracket ↔ kind = .leftBracket := by
  by_cases is : kind = .leftBracket
  · subst is
    cases side with
    | _ => decide
  · unfold after
    grind

theorem shows_after (side : Side) (kind : Kind) : Shows (side.after kind) (some kind) := by
  simp [Shows, after_eq_dot_iff, after_eq_bracket_iff]

theorem Shows.splats {side : Side} {previous : Option Kind} (shows_ : Shows side previous)
    (kind : Kind) :
    side.splats kind =
      decide (kind = .star ∧ (previous = some .dot ∨ previous = some .leftBracket)) := by
  simp [Side.splats, shows_.1, shows_.2]

end Side

/-- The tokens that leave a leaf, each with whether it joins two operands. -/
def Token.marked (side : Side) : List Token → List (Bool × Token)
  | [] => []
  | token :: rest =>
    if token.kind.isPunctuation || side.splats token.kind then marked (side.after token.kind) rest
    else (side.joins token.kind, token) :: marked (side.after token.kind) rest

theorem Token.marked_append (side : Side) (first second : List Token) :
    marked side (first ++ second) = marked side first ++ marked (side.run first) second := by
  induction first generalizing side with
  | nil => rfl
  | cons token first ih =>
      rw [List.cons_append, marked, marked, ih, Side.run_cons]
      split
      · rfl
      · rfl

/-- Without what they are there for, the marked tokens are those that are kept. -/
theorem Token.map_snd_marked {side : Side} {previous : Option Kind} (shows_ : side.Shows previous)
    (tokens : List Token) : (marked side tokens).map Prod.snd = kept previous tokens := by
  induction tokens generalizing side previous with
  | nil => rfl
  | cons token rest ih =>
      have others := ih (side.shows_after token.kind)
      rw [marked, kept, Kind.isDropped, shows_.splats]
      split
      · exact others
      · rw [List.map_cons, others]

/-! ### Leaves of a tree -/

namespace Tree

variable {holder rule : Rule} {line : Nat} {tree : Tree} {trees others : List Tree}

@[simp] theorem leaves_node : (node rule line trees).leaves holder = leavesAll rule trees := rfl

@[simp] theorem leaves_leaf (token : Token) : (leaf token).leaves holder = [(holder, token)] := rfl

@[simp] theorem leavesAll_nil : leavesAll holder [] = [] := rfl

@[simp] theorem leavesAll_cons :
    leavesAll holder (tree :: trees) = tree.leaves holder ++ leavesAll holder trees := rfl

@[simp] theorem leavesAll_append :
    leavesAll holder (trees ++ others) = leavesAll holder trees ++ leavesAll holder others := by
  induction trees with
  | nil => rfl
  | cons tree trees ih =>
      rw [List.cons_append, leavesAll_cons, ih, leavesAll_cons, List.append_assoc]

@[simp] theorem leaves_production (token : Token) :
    (Grammar.leaf rule token).leaves holder = [(rule, token)] := rfl

theorem leavesAll_newLines (lines : List Token) :
    leavesAll holder (Grammar.newLines lines) = lines.map fun token => (.newLines, token) := by
  have leaves : ∀ lines : List Token,
      leavesAll .newLines (lines.map leaf) = lines.map fun token => (.newLines, token) := by
    intro lines
    induction lines with
    | nil => rfl
    | cons line lines ih => rw [List.map_cons, leavesAll_cons, ih]; rfl
  cases lines with
  | nil => rfl
  | cons line lines =>
      rw [Grammar.newLines, leavesAll_cons, leaves_node, leaves, leavesAll_nil, List.append_nil]

/-- A leaf with whether it is the sign of a binary operator. -/
def sign (leaf : Rule × Token) : Bool × Token :=
  (leaf.1 = .binaryOperator, leaf.2)

end Tree

/-- Tokens between two sides that leave these leaves. -/
structure Spans (before : Side) (used : List Token) (leaves : List (Rule × Token))
    (behind : Side) : Prop where
  inside : ∀ token ∈ used, token.kind ≠ .eof
  marks : leaves.map Tree.sign = Token.marked before used
  ends : before.run used = behind

namespace Spans

variable {before between behind : Side} {used more : List Token}
  {leaves others : List (Rule × Token)}

theorem nil : Spans before [] [] before :=
  ⟨nofun, rfl, rfl⟩

theorem append (first : Spans before used leaves between)
    (second : Spans between more others behind) :
    Spans before (used ++ more) (leaves ++ others) behind where
  inside := List.forall_mem_append.mpr ⟨first.inside, second.inside⟩
  marks := by
    rw [List.map_append, Token.marked_append, first.marks, first.ends, second.marks]
  ends := by
    rw [Side.run_append, first.ends, second.ends]

/-- A token that is no leaf. -/
theorem drop {token : Token} {kind : Kind} (is : token.kind = kind) (inner : kind ≠ .eof)
    (dropped : (kind.isPunctuation || before.splats kind) = true)
    (rest : Spans (before.after kind) used leaves behind) :
    Spans before (token :: used) leaves behind where
  inside := List.forall_mem_cons.mpr ⟨by rw [is]; exact inner, rest.inside⟩
  marks := by
    rw [Token.marked, is, if_pos dropped, rest.marks]
  ends := by
    rw [Side.run_cons, is, rest.ends]

/-- A token that is a leaf. -/
theorem keep {token : Token} {kind : Kind} {holder : Rule} (is : token.kind = kind)
    (inner : kind ≠ .eof) (remains : (kind.isPunctuation || before.splats kind) = false)
    (holds : before.joins kind = decide (holder = .binaryOperator))
    (rest : Spans (before.after kind) used leaves behind) :
    Spans before (token :: used) ((holder, token) :: leaves) behind where
  inside := List.forall_mem_cons.mpr ⟨by rw [is]; exact inner, rest.inside⟩
  marks := by
    rw [Token.marked, is, if_neg (ne_true_of_eq_false remains), List.map_cons, rest.marks, holds]
    rfl
  ends := by
    rw [Side.run_cons, is, rest.ends]

theorem newlines {lines : List Token} (newlines : Grammar.Newlines lines) :
    Spans before lines (lines.map fun token => (.newLines, token)) (before.run lines) := by
  induction lines generalizing before with
  | nil => exact .nil
  | cons line lines ih =>
      obtain ⟨newline, newlines⟩ := List.forall_mem_cons.mp newlines
      have rest := @ih (before.after .newline) newlines
      rw [List.map_cons, Side.run_cons, newline]
      refine .keep newline nofun ?_ ?_ rest
      · cases before with
        | _ => rfl
      · cases before with
        | _ => rfl

theorem lines (holder : Rule) {lines : List Token} (newlines : Grammar.Newlines lines) :
    Spans before lines (Tree.leavesAll holder (Grammar.newLines lines)) (before.run lines) := by
  rw [Tree.leavesAll_newLines]
  exact .newlines newlines

/-- A name, a number or a string. -/
theorem word {token : Token} {kind : Kind} {holder : Rule} (is : token.kind = kind)
    (closes : kind.closesOperand = true) (plain : kind.isPunctuation = false)
    (other : holder ≠ .binaryOperator) (rest : Spans .operand used leaves behind) :
    Spans before (token :: used) ((holder, token) :: leaves) behind := by
  have sides := before.after_closing closes
  refine .keep is ?_ ?_ ?_ (by rwa [sides])
  · rintro rfl
    cases closes
  · cases kind with
    | star => cases closes
    | _ => simp [plain, Side.splats]
  · rw [decide_eq_false other]
    apply Side.joins_of_not
    cases kind with
    | int | float | ident | string => rfl
    | rightParen | rightBrace | rightBracket => rfl
    | _ => cases closes

/-- Punctuation. -/
theorem mark {token : Token} {kind : Kind} (is : token.kind = kind)
    (punctuates : kind.isPunctuation = true) (rest : Spans (before.after kind) used leaves behind) :
    Spans before (token :: used) leaves behind := by
  refine .drop is ?_ ?_ rest
  · rintro rfl
    cases punctuates
  · rw [punctuates, Bool.true_or]

/-- The closing token of brackets. -/
theorem closing {token : Token} {kind : Kind} (is : token.kind = kind)
    (closes : kind.closesOperand = true) (punctuates : kind.isPunctuation = true) :
    Spans before [token] [] .operand := by
  refine .mark is punctuates ?_
  rw [before.after_closing closes]
  exact .nil

end Spans

namespace Tree

variable {side : Side} {holder : Rule} {used : List Token}

/-- Where no operand is to the left, the phrases are those of an operand with these leaves. -/
def Spanned (Phrase : Grammar.Phrase) : Prop :=
  ∀ ⦃used tree⦄, Phrase used tree → ∀ holder ⦃side⦄, side ≠ .operand →
    Spans side used (tree.leaves holder) .operand

section Phrases

variable {Value Nested Item : Grammar.Phrase} {tree : Tree} {trees : List Tree}

theorem items_span (holder : Rule) (spanned : Spanned Value)
    (items : Grammar.Items Value used trees) (fresh : side ≠ .operand) :
    ∃ behind, Spans side used (leavesAll holder trees) behind := by
  have separated : ∀ {trail lead others leaves behind} {comma : Token},
      Grammar.Newlines trail → comma.kind = .comma → Grammar.Newlines lead →
      Spans (Side.free.run lead) others leaves behind →
      Spans .operand (trail ++ comma :: (lead ++ others))
        (leavesAll holder (Grammar.newLines trail) ++
          (leavesAll holder (Grammar.newLines lead) ++ leaves)) behind := by
    intro trail lead others leaves behind comma trailing is leading rest
    refine (Spans.lines holder trailing).append (.mark is rfl ?_)
    rw [Side.after_free _ (.inl rfl)]
    exact (Spans.lines holder leading).append rest
  induction items generalizing side with
  | last item trailing => exact ⟨_, (spanned item holder fresh).append (.lines holder trailing)⟩
  | comma item trailing is leading =>
      have behind := separated trailing is leading .nil
      rw [List.append_nil, List.append_nil] at behind
      rw [leavesAll_cons, leavesAll_append]
      exact ⟨_, (spanned item holder fresh).append behind⟩
  | more item trailing is leading _ ih =>
      obtain ⟨behind, others⟩ := ih (Side.run_newlines_ne Side.free_ne leading)
      rw [leavesAll_cons, leavesAll_append, leavesAll_append]
      exact ⟨behind, (spanned item holder fresh).append (separated trailing is leading others)⟩

theorem key_span {token : Token} (key : Grammar.Key token tree) {more : List Token}
    {leaves : List (Rule × Token)} {behind : Side} (rest : Spans .operand more leaves behind) :
    Spans side (token :: more) (tree.leaves holder ++ leaves) behind := by
  cases key with
  | name is | string is => exact .word is rfl rfl nofun rest

theorem element_span (spanned : Spanned Value) (element : Grammar.Element Value used tree) :
    Spans side used (tree.leaves holder) .operand := by
  obtain ⟨key, assigns, item⟩ := element
  have value := spanned item .objectElement Side.opening_ne
  rw [leaves_node, leavesAll_cons, leavesAll_cons, leavesAll_nil, List.append_nil]
  apply key_span key
  rcases assigns with is | is
  · exact .mark is rfl value
  · exact .mark is rfl value

theorem separator_span {separator : List Token} (separates : Grammar.Separator separator trees) :
    ∃ behind, Spans .operand separator (leavesAll holder trees) behind := by
  cases separates with
  | @comma comma lines is newlines =>
      have behind : Spans (Side.operand.after .comma) lines
          (leavesAll holder (Grammar.newLines lines)) (Side.free.run lines) := by
        rw [Side.after_free _ (.inl rfl)]
        exact .lines holder newlines
      exact ⟨_, .mark is rfl behind⟩
  | lines _ newlines => exact ⟨_, .lines holder newlines⟩

theorem elements_span (side : Side) (holder : Rule) (spanned : Spanned Value)
    (elements : Grammar.Elements Value used trees) :
    ∃ behind, Spans side used (leavesAll holder trees) behind := by
  induction elements generalizing side with
  | none => exact ⟨side, .nil⟩
  | last item =>
      rw [leavesAll_cons, leavesAll_nil, List.append_nil]
      exact ⟨_, element_span spanned item⟩
  | more item separates _ ih =>
      obtain ⟨between, middle⟩ := separator_span separates
      obtain ⟨behind, others⟩ := ih between
      rw [leavesAll_cons, leavesAll_append]
      exact ⟨behind, (element_span spanned item).append (middle.append others)⟩

theorem optional_span (holder : Rule) (spanned : Spanned Value)
    (items : Grammar.Optional (Grammar.Items Value) used trees) (fresh : side ≠ .operand) :
    ∃ behind, Spans side used (leavesAll holder trees) behind := by
  cases items with
  | none => exact ⟨side, .nil⟩
  | some items => exact items_span holder spanned items fresh

theorem arguments_span (holder : Rule) (spanned : Spanned Value)
    (arguments : Grammar.Arguments Value used trees) (fresh : side ≠ .operand) :
    ∃ behind, Spans side used (leavesAll holder trees) behind := by
  cases arguments with
  | none => exact ⟨side, .nil⟩
  | some items =>
      rw [leavesAll_cons, leaves_node, leavesAll_nil, List.append_nil]
      exact items_span .arguments spanned items fresh

/-- Newlines and then others behind an opening token, up to the closing token. -/
theorem enclosed_span {before inside behind : Side} {opening closing : Token} {open_ close : Kind}
    {lead inner : List Token} (opens : opening.kind = open_) (begins : open_.isPunctuation = true)
    (after : before.after open_ = inside) (leading : Grammar.Newlines lead)
    (items : Spans (inside.run lead) inner (leavesAll holder trees) behind)
    (closes : closing.kind = close) (last : close.closesOperand = true)
    (ends : close.isPunctuation = true) :
    Spans before (opening :: (lead ++ (inner ++ [closing])))
      (leavesAll holder (Grammar.newLines lead ++ trees)) .operand := by
  refine .mark opens begins ?_
  rw [after, leavesAll_append, ← List.append_nil (leavesAll holder trees)]
  exact (Spans.lines holder leading).append (items.append (.closing closes last ends))

theorem primary_span (spanned : Spanned Value) (primary : Grammar.Primary Value used trees) :
    Spans side used (leavesAll holder trees) .operand := by
  cases primary with
  | int is | float is | string is | name is => exact .word is rfl rfl nofun .nil
  | group opens leading item trailing closes =>
      have value := spanned item holder (Side.run_newlines_ne Side.free_ne leading)
      have inside := value.append (.lines holder trailing)
      rw [← leavesAll_cons] at inside
      simpa only [List.append_assoc] using enclosed_span opens rfl (Side.after_free _ (.inr rfl))
        leading inside closes rfl rfl
  | call named opens leading inner closes =>
      obtain ⟨behind, items⟩ := arguments_span .call spanned inner
        (Side.run_newlines_ne Side.free_ne leading)
      have inside := enclosed_span opens rfl (Side.after_free .operand (.inr rfl)) leading items
        closes rfl rfl
      rw [leavesAll_cons, leavesAll_nil, List.append_nil, leaves_node, leavesAll_cons]
      exact .word named rfl rfl nofun inside
  | tuple opens leading inner closes =>
      obtain ⟨behind, items⟩ := optional_span .tuple spanned inner
        (Side.run_newlines_ne Side.bracket_ne leading)
      rw [leavesAll_cons, leavesAll_nil, List.append_nil, leaves_node]
      exact enclosed_span opens rfl (Side.after_leftBracket _) leading items closes rfl rfl
  | @object _ _ lead _ _ opens leading inner closes =>
      obtain ⟨behind, items⟩ := elements_span ((side.after .leftBrace).run lead) .object spanned
        inner
      rw [leavesAll_cons, leavesAll_nil, List.append_nil, leaves_node]
      exact enclosed_span opens rfl rfl leading items closes rfl rfl

theorem step_span {step : Projection} (taken : Grammar.Step used step) :
    Spans side used (step.step.leaves holder) .operand := by
  cases taken with
  | attr steps is | number steps is => exact .mark steps rfl (.word is rfl rfl nofun .nil)
  | attrSplat steps is =>
      refine .mark steps rfl (.drop is nofun ?_ ?_)
      · rw [Side.after_dot]
        rfl
      · rw [Side.after_dot]
        exact .nil
  | int opens is closes | string opens is closes =>
      exact .mark opens rfl (.word is rfl rfl nofun (.closing closes rfl rfl))
  | fullSplat opens is closes =>
      refine .mark opens rfl (.drop is nofun ?_ (.closing closes rfl rfl))
      rw [Side.after_leftBracket]
      rfl

/-- Steps add their leaves behind those of the term that they start from. -/
theorem steps_span {line : Nat} {start : List Token} {term last : Tree}
    (steps : Grammar.Steps line used term last)
    (first : ∀ holder, Spans side start (term.leaves holder) .operand) :
    ∀ holder, Spans side (start ++ used) (last.leaves holder) .operand := by
  induction steps generalizing start with
  | none => simpa only [List.append_nil] using first
  | @more taken_ _ step term _ taken _ ih =>
      have next : ∀ holder, Spans side (start ++ taken_) ((project line term step).leaves holder)
          .operand := by
        intro holder
        simpa only [project, leaves_node, leavesAll_cons, leavesAll_nil, List.append_nil] using
          (first step.term).append (step_span taken)
      simpa only [List.append_assoc] using ih next

theorem term_span (spanned : Spanned Value) (term : Grammar.Term Value used tree) :
    Spans side used (tree.leaves holder) .operand := by
  obtain ⟨first, steps⟩ := term
  exact steps_span steps (fun _ => primary_span spanned first) holder

theorem operand_span (spanned : Spanned Value) : Spanned (Grammar.Operand Value) := by
  intro used tree operand holder side fresh
  cases operand with
  | plain term => exact term_span spanned term
  | @signed sign used tree signs term =>
      have value : ∀ {side}, Spans side used (leavesAll .unary [tree]) .operand := by
        intro side
        rw [leavesAll_cons, leavesAll_nil, List.append_nil]
        exact term_span spanned term
      have alone : ∀ kind, side.joins kind = decide (Rule.unary = .binaryOperator) := by
        intro kind
        simp [Side.joins, fresh]
      rcases signs with is | is
      · exact .keep is nofun rfl (alone _) value
      · exact .keep is nofun rfl (alone _) value

theorem operation_span (spanned : Spanned Value) : Spanned (Grammar.Operation Value) := by
  intro used tree operation holder side fresh
  cases operation with
  | single operand => exact operand_span spanned operand holder fresh
  | @binary _ _ _ sign _ rightTree operand joins newlines rest =>
      have behind := spanned rest .binaryTerm (Side.run_newlines_ne Side.free_ne newlines)
      have right := (Spans.lines .binaryTerm newlines).append behind
      have inner : sign.kind ≠ .eof := by
        intro eof
        rw [eof] at joins
        cases joins
      have remains := Side.keeps_operator joins
      have joined : Side.operand.joins sign.kind =
          decide (Rule.binaryOperator = .binaryOperator) := by
        simp [Side.joins, joins]
      rw [← Side.after_operator joins] at right
      have both := (operand_span spanned operand .binary fresh).append
        (.keep rfl inner remains joined right)
      simpa using both

theorem expr_span (depth : Nat) : Spanned (Grammar.Expr depth) := by
  induction depth with
  | zero => exact nofun
  | succ depth ih => exact operation_span ih

/-! ### Statements -/

/-- The phrases have these leaves, whatever is to the left. -/
def SpannedAnywhere (Item : Grammar.Phrase) : Prop :=
  ∀ ⦃used tree⦄, Item used tree →
    ∀ holder side, Spans side used (tree.leaves holder) .operand

theorem stmt_span (spanned : Spanned Value) (nested : SpannedAnywhere Nested) :
    SpannedAnywhere (Grammar.Stmt Value Nested) := by
  intro used tree stmt holder side
  cases stmt with
  | attr named assigns item =>
      have value := spanned item .attr Side.opening_ne
      rw [leaves_node, leavesAll_cons, leavesAll_cons, leavesAll_nil, List.append_nil]
      exact .word named rfl rfl nofun (.mark assigns rfl value)
  | block inner => exact nested inner holder side

theorem follow_span (side : Side) (holder : Rule) (spanned : SpannedAnywhere Item)
    (follow : Grammar.Follow Item used trees) :
    ∃ behind, Spans side used (leavesAll holder trees) behind := by
  induction follow generalizing side with
  | none newlines => exact ⟨_, .lines holder newlines⟩
  | more _ newlines item _ ih =>
      obtain ⟨behind, others⟩ := ih .operand
      rw [leavesAll_append, leavesAll_cons]
      exact ⟨behind, (Spans.lines holder newlines).append ((spanned item holder _).append others)⟩

theorem body_span (side : Side) (holder : Rule) (spanned : SpannedAnywhere Item)
    (body : Grammar.Body Item used trees) :
    ∃ behind, Spans side used (leavesAll holder trees) behind := by
  cases body with
  | blank newlines => exact ⟨_, .lines holder newlines⟩
  | items leading item follow =>
      obtain ⟨behind, others⟩ := follow_span .operand holder spanned follow
      rw [leavesAll_append, leavesAll_cons]
      exact ⟨behind, (Spans.lines holder leading).append ((spanned item holder _).append others)⟩

theorem labels_span (labels : Grammar.Labels used trees) {more : List Token}
    {leaves : List (Rule × Token)} {behind : Side}
    (rest : ∀ {side}, Spans side more leaves behind) :
    Spans side (used ++ more) (leavesAll holder trees ++ leaves) behind := by
  induction labels generalizing side with
  | none => exact rest
  | more key _ ih =>
      rw [leavesAll_cons, List.append_assoc]
      exact key_span key ih

/-- A body has the leaves of what is in it. -/
theorem leavesAll_body (line : Nat) (trees : List Tree) :
    leavesAll holder (Tree.body line trees) =
      leavesAll (if trees.any isStatement then .body else holder) trees := by
  unfold Tree.body
  split
  · rw [leavesAll_cons, leaves_node, leavesAll_nil, List.append_nil]
  · rfl

theorem labelled_span (spanned : SpannedAnywhere Item) :
    SpannedAnywhere (Grammar.Labelled Item) := by
  intro used tree labelled holder side
  obtain ⟨title, labels, opens, body, closes⟩ := labelled
  rw [leaves_node, leavesAll_cons, leavesAll_append]
  refine .word title rfl rfl nofun (labels_span labels fun {side} => ?_)
  rw [leavesAll_body]
  obtain ⟨behind, items⟩ := body_span _ _ spanned body
  rw [← List.append_nil (leavesAll _ _)]
  exact .mark opens rfl (items.append (.closing closes rfl rfl))

theorem block_span (depth : Nat) : SpannedAnywhere (Grammar.Block depth) := by
  induction depth with
  | zero => exact nofun
  | succ depth ih =>
      exact labelled_span (stmt_span (expr_span depth) ih)

end Phrases

/-! ### Documents -/

theorem document_span (side : Side) (holder : Rule) {depth : Nat} {trees : List Tree}
    (body : Grammar.Document depth used trees) :
    ∃ behind, Spans side used (leavesAll holder trees) behind :=
  body_span side holder (stmt_span (expr_span depth) (block_span depth)) body

theorem beforeEnd_append {rest : List Token} (inside : ∀ token ∈ used, token.kind ≠ .eof)
    (ends : ∀ token ∈ rest.head?, token.kind = .eof) : Token.beforeEnd (used ++ rest) = used := by
  have none : Token.beforeEnd rest = [] := by
    cases rest with
    | nil => rfl
    | cons token rest => simp [Token.beforeEnd, ends token rfl]
  rw [Token.beforeEnd_behind inside, none, List.append_nil]

/-- An end token behind the last token changes nothing. -/
theorem beforeEnd_concat (tokens : List Token) {last : Token} (ends : last.kind = .eof) :
    Token.beforeEnd (tokens ++ [last]) = Token.beforeEnd tokens := by
  induction tokens with
  | nil => simp [Token.beforeEnd, ends]
  | cons token tokens ih =>
      unfold Token.beforeEnd at ih ⊢
      rw [List.cons_append, List.takeWhile_cons, List.takeWhile_cons, ih]

theorem beforeEnd_splitEnd (tokens : List Token) :
    Token.beforeEnd (splitEnd tokens).1 = Token.beforeEnd tokens := by
  unfold splitEnd
  split
  next none => rw [List.getLast?_eq_none_iff.mp none]
  next last found =>
    split
    next ends =>
      obtain ⟨before, rfl⟩ := List.getLast?_eq_some_iff.mp found
      rw [List.dropLast_concat, beforeEnd_concat _ ends]
    next => rfl

/-- The tokens before the end are a document of the grammar, with the tree that was read. -/
theorem ofTokens_beforeEnd {tokens : List Token} {tree : Tree} (read : ofTokens tokens = .ok tree) :
    ∃ line trees, Grammar.Document maxNesting (Token.beforeEnd tokens) trees ∧
      tree = Grammar.document line trees := by
  obtain ⟨used, rest, line, trees, whole, ends, body, rfl⟩ := ofTokens_reads read
  obtain ⟨_, spans⟩ := document_span .opening .body body
  have same : Token.beforeEnd tokens = used := by
    rw [← beforeEnd_splitEnd, whole, beforeEnd_append spans.inside ends]
  exact ⟨line, trees, by rwa [same], rfl⟩

/-- A document that is not all newlines has a statement. -/
theorem any_isStatement_of_document {depth : Nat} {trees : List Tree}
    (body : Grammar.Document depth used trees) (stated : ∃ token ∈ used, token.kind ≠ .newline) :
    trees.any isStatement = true := by
  cases body with
  | blank newlines =>
      obtain ⟨token, member, other⟩ := stated
      exact absurd (newlines token member) other
  | items _ item =>
      have statement := Grammar.Stmt.stated (Grammar.Block.stated depth) item
      simp [statement]

/-- The leaves of a tree that was read, with those that are signs of binary operators. -/
theorem ofTokens_marks {tokens : List Token} {tree : Tree} (read : ofTokens tokens = .ok tree)
    (stated : ∃ token ∈ Token.beforeEnd tokens, token.kind ≠ .newline) :
    (tree.leaves .start).map sign = Token.marked .opening (Token.beforeEnd tokens) := by
  obtain ⟨line, trees, body, rfl⟩ := ofTokens_beforeEnd read
  obtain ⟨_, spans⟩ := document_span .opening .body body
  rw [Grammar.document, any_isStatement_of_document body stated, if_pos rfl, leaves_node,
    leavesAll_cons, leaves_node, leavesAll_nil, List.append_nil, spans.marks]

/-- The tree of a document with a statement keeps every token that is no punctuation and no star of
a splat. From left to right its leaves are these tokens, each once, at their places and in their
order. -/
theorem ofTokens_keeps {tokens : List Token} {tree : Tree} (read : ofTokens tokens = .ok tree)
    (stated : ∃ token ∈ Token.beforeEnd tokens, token.kind ≠ .newline) :
    tree.tokens = Token.kept none (Token.beforeEnd tokens) := by
  have marks := ofTokens_marks read stated
  have shows_ := Token.map_snd_marked Side.shows_opening (Token.beforeEnd tokens)
  rw [← shows_, ← marks, List.map_map]
  rfl

/-- The tokens of a block with `c = -[d.*, 1 * 2][*]` in it, with newlines where they may stand and
tokens behind the end. -/
theorem ofTokens_keeps_splats :
    let tokens : List Token :=
      [⟨.newline, ⟨1, 1⟩⟩, ⟨.ident "b", ⟨2, 1⟩⟩, ⟨.string "x", ⟨2, 3⟩⟩, ⟨.leftBrace, ⟨2, 7⟩⟩,
        ⟨.newline, ⟨2, 8⟩⟩, ⟨.ident "c", ⟨3, 1⟩⟩, ⟨.assign, ⟨3, 3⟩⟩, ⟨.minus, ⟨3, 5⟩⟩,
        ⟨.leftBracket, ⟨3, 6⟩⟩, ⟨.ident "d", ⟨3, 7⟩⟩, ⟨.dot, ⟨3, 8⟩⟩, ⟨.star, ⟨3, 9⟩⟩,
        ⟨.comma, ⟨3, 10⟩⟩, ⟨.newline, ⟨3, 11⟩⟩, ⟨.int 1, ⟨4, 1⟩⟩, ⟨.star, ⟨4, 3⟩⟩,
        ⟨.int 2, ⟨4, 5⟩⟩, ⟨.rightBracket, ⟨4, 6⟩⟩, ⟨.leftBracket, ⟨4, 7⟩⟩, ⟨.star, ⟨4, 8⟩⟩,
        ⟨.rightBracket, ⟨4, 9⟩⟩, ⟨.rightBrace, ⟨4, 11⟩⟩, ⟨.eof, ⟨4, 12⟩⟩, ⟨.star, ⟨1, 1⟩⟩]
    ∃ tree, ofTokens tokens = .ok tree ∧
      (∃ token ∈ Token.beforeEnd tokens, token.kind ≠ .newline) ∧
      tree.tokens = Token.kept none (Token.beforeEnd tokens) ∧
      tree.tokens.map Token.kind = [.newline, .ident "b", .string "x", .newline, .ident "c", .minus,
        .ident "d", .newline, .int 1, .star, .int 2] := by
  intro tokens
  have accepted : (ofTokens tokens).toOption.any (fun _ => true) = true := by decide +kernel
  have stated : ∃ token ∈ Token.beforeEnd tokens, token.kind ≠ .newline := by decide +kernel
  obtain ⟨tree, read, _⟩ := exists_of_any accepted
  have keeps := ofTokens_keeps read stated
  refine ⟨tree, read, stated, keeps, ?_⟩
  rw [keeps]
  decide +kernel

end Tree

end ConfigLang
