import ConfigLang.Proofs.Completeness
import ConfigLang.Proofs.Inline
import ConfigLang.Proofs.Spacing
/-!
The grammar does not see how its tokens are spaced. Where a phrase is at the front of some tokens, a
phrase is at the front of the same tokens with other newlines, and the trees of the two differ in
places and newlines only.
-/

set_option autoImplicit false

namespace ConfigLang.Tree

open Token (Aligned Spaced Allows)
open Reader (PastNewlines)

/-- The trees differ in places and newlines only, and as far as limits go they are the same. -/
structure Agree (tree other : Tree) : Prop where
  alike : Alike tree.inline other.inline
  fits : Fitting tree → Fitting other
  same : tree.height = other.height

/-- The trees differ in places and newlines only. Newlines have two levels, so that they make
nothing higher that has as many. -/
structure AgreeAll (trees others : List Tree) : Prop where
  alike : AlikeAll (inlineAll trees) (inlineAll others)
  fits : FittingAll trees → FittingAll others
  level : max 2 (highest trees) = max 2 (highest others)

/-- Trees that agree and are as high as each other. -/
structure LevelAll (trees others : List Tree) : Prop extends AgreeAll trees others where
  same : highest trees = highest others

section Agree

variable {tree other : Tree} {trees others before behind : List Tree} {rule : Rule}
  {line line' : Nat}

theorem Agree.isNewline (agree : Agree tree other) : tree.isNewline = other.isNewline := by
  have same := congrArg Tree.isNewline agree.alike
  simpa only [isNewline_unplaced, isNewline_inline] using same

theorem AgreeAll.append (first : AgreeAll before behind) (second : AgreeAll trees others) :
    AgreeAll (before ++ trees) (behind ++ others) where
  alike := by
    have both := congrArg₂ List.append first.alike second.alike
    simpa [AlikeAll] using both
  fits := by
    rw [fittingAll_append, fittingAll_append]
    exact And.imp first.fits second.fits
  level := by
    have low := first.level
    have low' := second.level
    rw [highest_append, highest_append]
    omega

theorem agreeAll_newLines (lines feeds : List Token) :
    AgreeAll (Grammar.newLines lines) (Grammar.newLines feeds) where
  alike := by
    rw [inlineAll_newLines, inlineAll_newLines]
    rfl
  fits := fun _ => fittingAll_newLines feeds
  level := by
    have low := highest_newLines lines
    have low' := highest_newLines feeds
    omega

theorem LevelAll.nil : LevelAll [] [] :=
  ⟨⟨rfl, id, rfl⟩, rfl⟩

theorem LevelAll.single (agree : Agree tree other) : LevelAll [tree] [other] where
  alike := by
    cases newline : tree.isNewline with
    | true =>
        rw [inlineAll_cons_of_newline newline,
          inlineAll_cons_of_newline (agree.isNewline.symm.trans newline)]
        rfl
    | false =>
        rw [inlineAll_cons_of_not newline,
          inlineAll_cons_of_not (agree.isNewline.symm.trans newline)]
        exact congrArg (fun tree => [tree]) agree.alike
  fits := by
    rw [fittingAll_cons, fittingAll_cons]
    exact And.imp agree.fits id
  level := by
    rw [highest_cons, highest_cons, agree.same]
  same := by
    rw [highest_cons, highest_cons, agree.same]

theorem LevelAll.append (first : LevelAll before behind) (second : LevelAll trees others) :
    LevelAll (before ++ trees) (behind ++ others) where
  toAgreeAll := first.toAgreeAll.append second.toAgreeAll
  same := by
    rw [highest_append, highest_append, first.same, second.same]

theorem LevelAll.cons (first : Agree tree other) (rest : LevelAll trees others) :
    LevelAll (tree :: trees) (other :: others) :=
  (LevelAll.single first).append rest

theorem AgreeAll.cons (first : Agree tree other) (rest : AgreeAll trees others) :
    AgreeAll (tree :: trees) (other :: others) :=
  (LevelAll.single first).toAgreeAll.append rest

/-- Newlines where there are newlines, or none where there are none. -/
theorem levelAll_newLines {lines feeds : List Token} (both : lines = [] ↔ feeds = []) :
    LevelAll (Grammar.newLines lines) (Grammar.newLines feeds) where
  toAgreeAll := agreeAll_newLines lines feeds
  same := by
    have two : ∀ {lines : List Token}, lines ≠ [] → highest (Grammar.newLines lines) = 2 := by
      intro lines some
      obtain ⟨line, lines, rfl⟩ := List.exists_cons_of_ne_nil some
      have low := highest_newLines (line :: lines)
      simp only [Grammar.newLines, List.map_cons, highest_cons, height_node, height_leaf] at low ⊢
      omega
    by_cases none : lines = []
    · rw [none, both.mp none]
    · rw [two none, two fun empty => none (both.mpr empty)]

theorem height_le_highest (member : tree ∈ trees) : tree.height ≤ highest trees := by
  obtain ⟨before, behind, rfl⟩ := List.append_of_mem member
  rw [highest_append, highest_cons]
  omega

/-- Newlines do not count where a tree among them has as many levels. -/
theorem AgreeAll.levelAll (all : AgreeAll trees others) (member : tree ∈ trees)
    (member' : other ∈ others) (agree : Agree tree other) (tall : 2 ≤ tree.height) :
    LevelAll trees others where
  toAgreeAll := all
  same := by
    have level := all.level
    have first := height_le_highest member
    have second := height_le_highest member'
    have same := agree.same
    omega

theorem LevelAll.of_tall (first : Agree tree other) (tall : 2 ≤ tree.height)
    (rest : AgreeAll trees others) : LevelAll (tree :: trees) (other :: others) :=
  (AgreeAll.cons first rest).levelAll List.mem_cons_self List.mem_cons_self first tall

theorem AgreeAll.node (all : AgreeAll trees others) (rule : Rule) (line line' : Nat) :
    Alike (Tree.node rule line trees).inline (Tree.node rule line' others).inline := by
  rw [Alike, inline_node, inline_node, unplaced_node, unplaced_node, all.alike]

/-- A production of trees that agree. -/
theorem LevelAll.node (all : LevelAll trees others) (rule : Rule) (line line' : Nat)
    (plain : rule ≠ .term) : Agree (Tree.node rule line trees) (Tree.node rule line' others) where
  alike := all.toAgreeAll.node rule line line'
  fits := by
    have first : (Tree.node rule line trees).isProjected = false := isProjected_of_ne plain
    have second : (Tree.node rule line' others).isProjected = false := isProjected_of_ne plain
    rw [fitting_of_not_projected first, fitting_of_not_projected second]
    exact all.fits
  same := by
    rw [height_node, height_node, all.same]

/-- A token in the place of another of its kind. -/
theorem agree_leaf {token next : Token} (same : next.kind = token.kind) :
    Agree (leaf token) (leaf next) where
  alike := congrArg leaf (Token.unplaced_inj.mpr same.symm)
  fits := fun _ => fitting_leaf next
  same := by
    rw [height_leaf, height_leaf]

theorem agree_production {token next : Token} (same : next.kind = token.kind)
    (plain : rule ≠ .term) : Agree (Grammar.leaf rule token) (Grammar.leaf rule next) :=
  (LevelAll.single (agree_leaf same)).node rule _ _ plain

theorem LevelAll.body (all : LevelAll trees others) (line line' : Nat) :
    LevelAll (Tree.body line trees) (Tree.body line' others) := by
  have same := any_isStatement_of_alike all.alike
  rw [any_isStatement_inlineAll, any_isStatement_inlineAll] at same
  unfold Tree.body
  rw [same]
  split
  · exact .single (all.node .body line line' nofun)
  · exact all

end Agree

/-! ### Collections -/

/-- The tokens begin with a phrase whose tree agrees with this one, and what is behind an operand
in them is spaced like the rest. -/
def Respaced (Phrase : Grammar.Phrase) (tree : Tree) (rest tokens : List Token) : Prop :=
  ∃ used follow other, tokens = used ++ follow ∧ Phrase used other ∧ Agree tree other ∧
    Spaced .operand rest follow

/-- The tokens begin with phrases whose trees agree with these, up to a token that is no newline. -/
def RespacedAll (Phrases : Grammar.Phrases) (trees : List Tree) (rest tokens : List Token) : Prop :=
  ∃ used follow others behind, tokens = used ++ follow ∧ Phrases used others ∧
    LevelAll trees others ∧ Aligned behind rest follow

/-- The phrases do not depend on how their tokens are spaced, where no operand is to the left. -/
def Respaces (Phrase : Grammar.Phrase) : Prop :=
  ∀ ⦃used tree⦄, Phrase used tree → ∀ ⦃side rest tokens⦄, side ≠ .operand →
    Aligned side (used ++ rest) tokens → Respaced Phrase tree rest tokens

section Phrases

variable {side : Side} {Value Nested Item : Grammar.Phrase} {used rest tokens : List Token}
  {tree : Tree} {trees : List Tree} {closing : Token}

/-- Where newlines mean something ahead of an expression, there are none. -/
theorem Respaces.spaced (respaces : Respaces Value) (opens : Grammar.Opens Value)
    (item : Value used tree) (fresh : side ≠ .operand) (bound : side ≠ .free)
    (spaced : Spaced side (used ++ rest) tokens) : Respaced Value tree rest tokens := by
  obtain ⟨token, follow, rfl, begins⟩ := opens item
  have counts := Grammar.ne_of_opensExpr begins (rfl : Grammar.opensExpr .newline = false)
  have within := Grammar.ne_of_opensExpr begins (rfl : Grammar.opensExpr .rightParen = false)
  exact respaces item fresh (spaced.aligned bound counts within)

/-- An item and the newlines behind it. -/
theorem item_respace (respaces : Respaces Value) {value trail : List Token}
    (item : Value value tree) (trailing : Grammar.Newlines trail) (past : PastNewlines rest)
    (fresh : side ≠ .operand) (aligned : Aligned side (value ++ (trail ++ rest)) tokens) :
    ∃ used feeds follow other, tokens = used ++ (feeds ++ follow) ∧ Value used other ∧
      Grammar.Newlines feeds ∧ Agree tree other ∧ Aligned (Side.operand.run trail) rest follow := by
  obtain ⟨used, _, other, rfl, item, agree, spaced⟩ := respaces item fresh aligned
  obtain ⟨feeds, follow, rfl, again, _, aligned⟩ := spaced.takeLines trailing past
  exact ⟨used, feeds, follow, other, rfl, item, again, agree, aligned⟩

theorem items_respace (respaces : Respaces Value) (opens : Grammar.Opens Value)
    (whole : ∀ ⦃used tree⦄, Value used tree → Whole tree)
    (items : Grammar.Items Value used trees) (counts : closing.kind ≠ .newline)
    (fresh : side ≠ .operand) (aligned : Aligned side (used ++ closing :: rest) tokens) :
    RespacedAll (Grammar.Items Value) trees (closing :: rest) tokens := by
  have past : PastNewlines (closing :: rest) := pastNewlines_of_kind rfl counts
  induction items generalizing side tokens with
  | last item trailing =>
      have tall := (whole item).tall
      rw [List.append_assoc] at aligned
      obtain ⟨value, feeds, follow, _, rfl, item, again, agree, aligned⟩ :=
        item_respace respaces item trailing past fresh aligned
      refine ⟨value ++ feeds, follow, _, _, by simp, .last item again, ?_, aligned⟩
      exact .of_tall agree tall (agreeAll_newLines _ feeds)
  | comma item trailing separates leading =>
      have tall := (whole item).tall
      simp only [List.append_assoc, List.cons_append] at aligned
      obtain ⟨value, feeds, _, _, rfl, item, again, agree, aligned⟩ :=
        item_respace respaces item trailing (pastNewlines_of_kind separates (by decide)) fresh
          aligned
      obtain ⟨comma, _, rfl, separates', spaced⟩ := aligned.take separates
      obtain ⟨first, follow, rfl, again', _, aligned⟩ := spaced.takeLines leading past
      refine ⟨value ++ (feeds ++ comma :: first), follow, _, _, by simp,
        .comma item again separates' again', ?_, aligned⟩
      exact .of_tall agree tall ((agreeAll_newLines _ feeds).append (agreeAll_newLines _ first))
  | more item trailing separates leading more ih =>
      have tall := (whole item).tall
      simp only [List.append_assoc, List.cons_append] at aligned
      obtain ⟨value, feeds, _, _, rfl, item, again, agree, aligned⟩ :=
        item_respace respaces item trailing (pastNewlines_of_kind separates (by decide)) fresh
          aligned
      obtain ⟨comma, _, rfl, separates', spaced⟩ := aligned.take separates
      obtain ⟨token, behind, rfl, begins⟩ := more.opens opens
      obtain ⟨first, _, rfl, again', _, aligned⟩ :=
        spaced.takeLines leading (pastNewlines_of_opens begins)
      rw [Side.after_free _ (.inl rfl)] at aligned
      obtain ⟨used, follow, trees, last, rfl, more, rest, aligned⟩ :=
        ih (Side.run_newlines_ne Side.free_ne leading) aligned
      refine ⟨value ++ (feeds ++ comma :: (first ++ used)), follow, _, last, by simp,
        .more item again separates' again' more, ?_, aligned⟩
      exact .of_tall agree tall ((agreeAll_newLines _ feeds).append
        ((agreeAll_newLines _ first).append rest.toAgreeAll))

theorem optional_respace (respaces : Respaces Value) (opens : Grammar.Opens Value)
    (whole : ∀ ⦃used tree⦄, Value used tree → Whole tree)
    (items : Grammar.Optional (Grammar.Items Value) used trees) (counts : closing.kind ≠ .newline)
    (fresh : side ≠ .operand) (aligned : Aligned side (used ++ closing :: rest) tokens) :
    RespacedAll (Grammar.Optional (Grammar.Items Value)) trees (closing :: rest) tokens := by
  cases items with
  | none => exact ⟨[], tokens, [], side, rfl, .none, .nil, aligned⟩
  | some items =>
      obtain ⟨used, follow, trees, behind, same, items, all, aligned⟩ :=
        items_respace respaces opens whole items counts fresh aligned
      exact ⟨used, follow, trees, behind, same, .some items, all, aligned⟩

theorem optional_ahead (opens : Grammar.Opens Value)
    (items : Grammar.Optional (Grammar.Items Value) used trees) {kind : Kind}
    (other : Grammar.opensExpr kind = false) (closes : closing.kind ≠ kind) :
    ∀ token ∈ (used ++ closing :: rest).head?, token.kind ≠ kind := by
  cases items with
  | none =>
      intro token first
      cases first
      exact closes
  | some items =>
      obtain ⟨token, others, rfl, begins⟩ := items.opens opens
      intro _ first
      cases first
      exact Grammar.ne_of_opensExpr begins other

theorem optional_of_arguments (arguments : Grammar.Arguments Value used trees) :
    ∃ items, Grammar.Optional (Grammar.Items Value) used items := by
  cases arguments with
  | none => exact ⟨[], .none⟩
  | some items => exact ⟨_, .some items⟩

theorem arguments_respace (respaces : Respaces Value) (opens : Grammar.Opens Value)
    (whole : ∀ ⦃used tree⦄, Value used tree → Whole tree)
    (arguments : Grammar.Arguments Value used trees) (counts : closing.kind ≠ .newline)
    (fresh : side ≠ .operand) (aligned : Aligned side (used ++ closing :: rest) tokens) :
    RespacedAll (Grammar.Arguments Value) trees (closing :: rest) tokens := by
  cases arguments with
  | none => exact ⟨[], tokens, [], side, rfl, .none, .nil, aligned⟩
  | some items =>
      obtain ⟨used, follow, trees, behind, same, items, all, aligned⟩ :=
        items_respace respaces opens whole items counts fresh aligned
      exact ⟨used, follow, _, behind, same, .some items,
        .single (all.node .arguments _ _ nofun), aligned⟩

theorem key_respace {token : Token} (key : Grammar.Key token tree)
    (aligned : Aligned side (token :: rest) tokens) :
    ∃ next follow other, tokens = next :: follow ∧ Grammar.Key next other ∧ Agree tree other ∧
      Spaced .operand rest follow := by
  cases key with
  | name is =>
      obtain ⟨next, follow, rfl, same, spaced⟩ := aligned.take is
      have agree : Agree (Grammar.leaf .identifier token) (Grammar.leaf .identifier next) :=
        agree_production (same.trans is.symm) nofun
      rw [side.after_closing rfl] at spaced
      exact ⟨next, follow, _, rfl, .name same, agree, spaced⟩
  | string is =>
      obtain ⟨next, follow, rfl, same, spaced⟩ := aligned.take is
      have agree : Agree (Grammar.leaf .string token) (Grammar.leaf .string next) :=
        agree_production (same.trans is.symm) nofun
      rw [side.after_closing rfl] at spaced
      exact ⟨next, follow, _, rfl, .string same, agree, spaced⟩

theorem element_respace (respaces : Respaces Value) (opens : Grammar.Opens Value)
    (element : Grammar.Element Value used tree) (aligned : Aligned side (used ++ rest) tokens) :
    Respaced (Grammar.Element Value) tree rest tokens := by
  obtain ⟨key, assigns, item⟩ := element
  obtain ⟨name, _, nameTree, rfl, key, agreeKey, spaced⟩ := key_respace key aligned
  have signed : ∀ {kind : Kind}, kind = .assign ∨ kind = .colon →
      kind ≠ .newline ∧ kind ≠ .rightParen ∧ Side.operand.after kind = .opening := by
    rintro kind (rfl | rfl)
    · decide
    · decide
  obtain ⟨counts, within, after⟩ := signed assigns
  obtain ⟨sign, _, rfl, same, spaced⟩ := spaced.take rfl (by decide) counts within
  rw [after] at spaced
  obtain ⟨value, follow, tree, rfl, item, agree, spaced⟩ :=
    respaces.spaced opens item Side.opening_ne (by decide) spaced
  have all := LevelAll.cons agreeKey (.cons agree .nil)
  exact ⟨name :: sign :: value, follow, _, rfl, .mk key (by rwa [same]) item,
    all.node .objectElement _ _ nofun, spaced⟩

theorem element_tall (element : Grammar.Element Value used tree) : 2 ≤ tree.height := by
  obtain @⟨_, _, _, keyTree, _, _, _, _⟩ := element
  have some := one_le_height keyTree
  rw [height_node, highest_cons]
  omega

theorem separator_respace {separator : List Token} (separates : Grammar.Separator separator trees)
    (past : PastNewlines rest) (spaced : Spaced .operand (separator ++ rest) tokens) :
    ∃ used follow others behind, tokens = used ++ follow ∧ Grammar.Separator used others ∧
      AgreeAll trees others ∧ Aligned behind rest follow := by
  cases separates with
  | comma separates newlines =>
      obtain ⟨comma, _, rfl, separates, spaced⟩ :=
        spaced.take separates (by decide) (by decide) (by decide)
      obtain ⟨feeds, follow, rfl, again, _, aligned⟩ := spaced.takeLines newlines past
      exact ⟨comma :: feeds, follow, _, _, rfl, .comma separates again, agreeAll_newLines _ _,
        aligned⟩
  | lines nonempty newlines =>
      obtain ⟨feeds, follow, rfl, again, allowed, aligned⟩ := spaced.takeLines newlines past
      exact ⟨feeds, follow, _, _, rfl, .lines (allowed.nonempty nonempty) again,
        agreeAll_newLines _ _, aligned⟩

/-- No parenthesis closes an object. -/
theorem elements_within (elements : Grammar.Elements Value used trees)
    (closes : closing.kind = .rightBrace) :
    ∀ token ∈ (used ++ closing :: rest).head?, token.kind ≠ .rightParen := by
  have keyed : ∀ {element more : List Token} {tree : Tree}, Grammar.Element Value element tree →
      ∀ token ∈ (element ++ more).head?, token.kind ≠ .rightParen := by
    intro element more tree item token first
    obtain ⟨key, _, _⟩ := item
    cases first
    cases key with
    | name is | string is =>
        rw [is]
        exact nofun
  cases elements with
  | none =>
      intro token first
      cases first
      rw [closes]
      decide
  | last item => exact keyed item
  | more item =>
      rw [List.append_assoc]
      exact keyed item

theorem elements_respace (respaces : Respaces Value) (opens : Grammar.Opens Value)
    (elements : Grammar.Elements Value used trees) (closes : closing.kind = .rightBrace)
    (aligned : Aligned side (used ++ closing :: rest) tokens) :
    RespacedAll (Grammar.Elements Value) trees (closing :: rest) tokens := by
  induction elements generalizing side tokens with
  | none => exact ⟨[], tokens, [], side, rfl, .none, .nil, aligned⟩
  | last item =>
      obtain ⟨element, follow, _, rfl, item, agree, spaced⟩ :=
        element_respace respaces opens item aligned
      have ends := spaced.aligned (by decide) (by rw [closes]; decide) (by rw [closes]; decide)
      exact ⟨element, follow, _, .operand, rfl, .last item, .single agree, ends⟩
  | more item separates more ih =>
      have tall := element_tall item
      simp only [List.append_assoc] at aligned
      obtain ⟨element, _, _, rfl, item, agree, spaced⟩ :=
        element_respace respaces opens item aligned
      obtain ⟨separator, _, _, _, rfl, separates, between, aligned⟩ :=
        separator_respace separates (elements_past more closes) spaced
      obtain ⟨used, follow, _, last, rfl, more, all, aligned⟩ := ih aligned
      refine ⟨element ++ (separator ++ used), follow, _, last, by simp,
        .more item separates more, ?_, aligned⟩
      exact .of_tall agree tall (between.append all.toAgreeAll)

/-! ### Terms -/

/-- Something between brackets, with newlines behind the first. -/
theorem enclosed_respace {opening : Token} {begins ends : Kind} {lead inner : List Token}
    {Phrases : Grammar.Phrases} (opens : opening.kind = begins) (closes : closing.kind = ends)
    (last : ends.closesOperand = true) (leading : Grammar.Newlines lead)
    (past : PastNewlines (inner ++ closing :: rest))
    (within : ∀ {tokens}, Aligned ((side.after begins).run lead) (inner ++ closing :: rest) tokens →
      RespacedAll Phrases trees (closing :: rest) tokens)
    (aligned : Aligned side (opening :: (lead ++ (inner ++ closing :: rest))) tokens) :
    ∃ first feeds used final follow others,
      tokens = first :: (feeds ++ (used ++ [final])) ++ follow ∧ first.kind = begins ∧
        Grammar.Newlines feeds ∧
        Allows (side.after begins) lead feeds (inner ++ closing :: rest) ∧ Phrases used others ∧
        LevelAll trees others ∧ final.kind = ends ∧ Spaced .operand rest follow := by
  obtain ⟨first, _, rfl, same, spaced⟩ := aligned.take opens
  obtain ⟨feeds, _, rfl, again, allowed, aligned⟩ := spaced.takeLines leading past
  obtain ⟨used, _, others, behind, rfl, phrases, all, aligned⟩ := within aligned
  obtain ⟨final, follow, rfl, same', spaced⟩ := aligned.take closes
  rw [behind.after_closing last] at spaced
  exact ⟨first, feeds, used, final, follow, others, by simp, same, again, allowed, phrases, all,
    same', spaced⟩

/-- The tokens begin with a term without steps. -/
def RespacedPrimary (Value : Grammar.Phrase) (trees : List Tree) (rest tokens : List Token) :
    Prop :=
  ∃ used follow others, tokens = used ++ follow ∧ Grammar.Primary Value used others ∧
    LevelAll trees others ∧ Spaced .operand rest follow

/-- A term that is a single token. -/
theorem word_respace {token : Token} {kind : Kind} {rule : Rule} (is : token.kind = kind)
    (closes : kind.closesOperand = true) (plain : rule ≠ .term)
    (primary : ∀ {token : Token}, token.kind = kind →
      Grammar.Primary Value [token] [Grammar.leaf rule token])
    (aligned : Aligned side (token :: rest) tokens) :
    RespacedPrimary Value [Grammar.leaf rule token] rest tokens := by
  obtain ⟨next, follow, rfl, same, spaced⟩ := aligned.take is
  rw [side.after_closing closes] at spaced
  have agree : Agree (Grammar.leaf rule token) (Grammar.leaf rule next) :=
    agree_production (same.trans is.symm) plain
  exact ⟨[next], follow, _, rfl, primary same, .single agree, spaced⟩

theorem group_respace (respaces : Respaces Value) (opens : Grammar.Opens Value)
    (whole : ∀ ⦃used tree⦄, Value used tree → Whole tree) {opening : Token}
    {lead value trail : List Token} (begins : opening.kind = .leftParen)
    (leading : Grammar.Newlines lead) (item : Value value tree) (trailing : Grammar.Newlines trail)
    (closes : closing.kind = .rightParen)
    (aligned : Aligned side (opening :: (lead ++ (value ++ (trail ++ closing :: rest)))) tokens) :
    RespacedPrimary Value (Grammar.newLines lead ++ tree :: Grammar.newLines trail) rest
      tokens := by
  have ahead : PastNewlines (value ++ (trail ++ closing :: rest)) := by
    obtain ⟨token, others, rfl, opensExpr⟩ := opens item
    exact pastNewlines_of_opens opensExpr
  have past : PastNewlines (closing :: rest) := pastNewlines_of_kind closes (by decide)
  obtain ⟨first, _, rfl, same, spaced⟩ := aligned.take begins
  rw [side.after_free (.inr rfl)] at spaced
  obtain ⟨feeds, _, rfl, again, _, aligned⟩ := spaced.takeLines leading ahead
  obtain ⟨used, feeds', _, other, rfl, item', again', agree, aligned⟩ :=
    item_respace respaces item trailing past (Side.run_newlines_ne Side.free_ne leading) aligned
  obtain ⟨final, follow, rfl, same', spaced⟩ := aligned.take closes
  rw [Side.after_closing _ rfl] at spaced
  have all := (agreeAll_newLines lead feeds).append
    (AgreeAll.cons agree (agreeAll_newLines trail feeds'))
  exact ⟨first :: (feeds ++ (used ++ (feeds' ++ [final]))), follow, _, by simp,
    .group same again item' again' same',
    all.levelAll (by simp) (by simp) agree (whole item).tall, spaced⟩

theorem call_respace (respaces : Respaces Value) (opens : Grammar.Opens Value)
    (whole : ∀ ⦃used tree⦄, Value used tree → Whole tree) {function opening : Token}
    {name : String} {lead inner : List Token} (named : function.kind = .ident name)
    (begins : opening.kind = .leftParen) (leading : Grammar.Newlines lead)
    (arguments : Grammar.Arguments Value inner trees) (closes : closing.kind = .rightParen)
    (aligned : Aligned side (function :: opening :: (lead ++ (inner ++ closing :: rest))) tokens) :
    RespacedPrimary Value
      [.node .call function.place.line
        (Grammar.leaf .identifier function :: (Grammar.newLines lead ++ trees))] rest tokens := by
  have counts : closing.kind ≠ .newline := by
    rw [closes]
    decide
  have fresh := Side.run_newlines_ne Side.free_ne leading
  obtain ⟨_, items⟩ := optional_of_arguments arguments
  obtain ⟨title, _, rfl, same, spaced⟩ := aligned.take named
  rw [side.after_closing rfl] at spaced
  have aligned := spaced.aligned (by decide) (by rw [begins]; decide) (by rw [begins]; decide)
  obtain ⟨first, feeds, used, final, follow, others, rfl, begins, again, _, arguments, all, closes,
    spaced⟩ := enclosed_respace begins closes rfl leading (optional_ahead opens items rfl counts)
      (arguments_respace respaces opens whole arguments counts fresh) aligned
  have agree : Agree (Grammar.leaf .identifier function) (Grammar.leaf .identifier title) :=
    agree_production (same.trans named.symm) nofun
  have tall : 2 ≤ (Grammar.leaf .identifier function).height :=
    Nat.le_of_eq (height_production .identifier function).symm
  have inside := LevelAll.of_tall agree tall ((agreeAll_newLines lead feeds).append all.toAgreeAll)
  exact ⟨title :: first :: (feeds ++ (used ++ [final])), follow, _, by simp,
    .call same begins again arguments closes, .single (inside.node .call _ _ nofun), spaced⟩

theorem tuple_respace (respaces : Respaces Value) (opens : Grammar.Opens Value)
    (whole : ∀ ⦃used tree⦄, Value used tree → Whole tree) {opening : Token}
    {lead inner : List Token} (begins : opening.kind = .leftBracket)
    (leading : Grammar.Newlines lead)
    (items : Grammar.Optional (Grammar.Items Value) inner trees)
    (closes : closing.kind = .rightBracket)
    (aligned : Aligned side (opening :: (lead ++ (inner ++ closing :: rest))) tokens) :
    RespacedPrimary Value [.node .tuple opening.place.line (Grammar.newLines lead ++ trees)] rest
      tokens := by
  have counts : closing.kind ≠ .newline := by
    rw [closes]
    decide
  have bracket := side.after_leftBracket
  have fresh := Side.run_newlines_ne Side.bracket_ne leading
  rw [← bracket] at fresh
  have past : PastNewlines (inner ++ closing :: rest) := optional_ahead opens items rfl counts
  obtain ⟨first, feeds, used, final, follow, others, rfl, begins, again, allowed, items', all,
    closes', spaced⟩ := enclosed_respace begins closes rfl leading past
      (optional_respace respaces opens whole items counts fresh) aligned
  have within : closing.kind ≠ .rightParen := by
    rw [closes]
    decide
  have bound : side.after .leftBracket ≠ .free := by
    rw [bracket]
    decide
  have both := allowed.both bound (optional_ahead opens items rfl within)
  have inside := (levelAll_newLines both).append all
  exact ⟨first :: (feeds ++ (used ++ [final])), follow, _, by simp,
    .tuple begins again items' closes', .single (inside.node .tuple _ _ nofun), spaced⟩

theorem object_respace (respaces : Respaces Value) (opens : Grammar.Opens Value) {opening : Token}
    {lead inner : List Token} (begins : opening.kind = .leftBrace)
    (leading : Grammar.Newlines lead) (elements : Grammar.Elements Value inner trees)
    (closes : closing.kind = .rightBrace)
    (aligned : Aligned side (opening :: (lead ++ (inner ++ closing :: rest))) tokens) :
    RespacedPrimary Value [.node .object opening.place.line (Grammar.newLines lead ++ trees)] rest
      tokens := by
  obtain ⟨first, feeds, used, final, follow, others, rfl, begins, again, allowed, elements', all,
    closes', spaced⟩ := enclosed_respace begins closes rfl leading (elements_past elements closes)
      (elements_respace respaces opens elements closes) aligned
  have bound : side.after .leftBrace ≠ .free := by
    rw [side.after_leftBrace]
    decide
  have both := allowed.both bound (elements_within elements closes)
  have inside := (levelAll_newLines both).append all
  exact ⟨first :: (feeds ++ (used ++ [final])), follow, _, by simp,
    .object begins again elements' closes', .single (inside.node .object _ _ nofun), spaced⟩

theorem primary_respace (respaces : Respaces Value) (opens : Grammar.Opens Value)
    (whole : ∀ ⦃used tree⦄, Value used tree → Whole tree)
    (primary : Grammar.Primary Value used trees) (aligned : Aligned side (used ++ rest) tokens) :
    RespacedPrimary Value trees rest tokens := by
  cases primary with
  | int is => exact word_respace is rfl nofun .int aligned
  | float is => exact word_respace is rfl nofun .float aligned
  | string is => exact word_respace is rfl nofun .string aligned
  | name is => exact word_respace is rfl nofun .name aligned
  | group begins leading item trailing closes =>
      simp only [List.cons_append, List.append_assoc, List.nil_append] at aligned
      exact group_respace respaces opens whole begins leading item trailing closes aligned
  | call named begins leading inner closes =>
      simp only [List.cons_append, List.append_assoc, List.nil_append] at aligned
      exact call_respace respaces opens whole named begins leading inner closes aligned
  | tuple begins leading inner closes =>
      simp only [List.cons_append, List.append_assoc, List.nil_append] at aligned
      exact tuple_respace respaces opens whole begins leading inner closes aligned
  | object begins leading inner closes =>
      simp only [List.cons_append, List.append_assoc, List.nil_append] at aligned
      exact object_respace respaces opens begins leading inner closes aligned

/-- A dot and what it leads to. No newline may be added around it. -/
theorem dot_respace {dot key : Token} {kind : Kind} (steps : dot.kind = .dot)
    (is : key.kind = kind) (ends : Side.dot.after kind = .operand)
    (within : kind ≠ .newline ∧ kind ≠ .rightParen)
    (spaced : Spaced .operand (dot :: key :: rest) tokens) :
    ∃ dot' key' follow, tokens = [dot', key'] ++ follow ∧ dot'.kind = .dot ∧ key'.kind = kind ∧
      Spaced .operand rest follow := by
  obtain ⟨dot', _, rfl, same, spaced⟩ := spaced.take steps (by decide) (by decide) (by decide)
  rw [Side.after_dot] at spaced
  obtain ⟨key', follow, rfl, same', spaced⟩ := spaced.take is (by decide) within.1 within.2
  rw [ends] at spaced
  exact ⟨dot', key', follow, rfl, same, same', spaced⟩

/-- Brackets and what is in them. -/
theorem bracket_respace {opening key : Token} {kind : Kind} (opens : opening.kind = .leftBracket)
    (is : key.kind = kind) (closes : closing.kind = .rightBracket)
    (ends : Side.bracket.after kind = .operand) (within : kind ≠ .newline ∧ kind ≠ .rightParen)
    (spaced : Spaced .operand (opening :: key :: closing :: rest) tokens) :
    ∃ opening' key' closing' follow, tokens = [opening', key', closing'] ++ follow ∧
      opening'.kind = .leftBracket ∧ key'.kind = kind ∧ closing'.kind = .rightBracket ∧
      Spaced .operand rest follow := by
  obtain ⟨opening', _, rfl, same, spaced⟩ := spaced.take opens (by decide) (by decide) (by decide)
  rw [Side.after_leftBracket] at spaced
  obtain ⟨key', _, rfl, same', spaced⟩ := spaced.take is (by decide) within.1 within.2
  rw [ends] at spaced
  obtain ⟨closing', follow, rfl, same'', spaced⟩ :=
    spaced.take closes (by decide) (by decide) (by decide)
  rw [Side.after_closing _ rfl] at spaced
  exact ⟨opening', key', closing', follow, rfl, same, same', same'', spaced⟩

theorem step_respace {step : Projection} (taken : Grammar.Step used step)
    (spaced : Spaced .operand (used ++ rest) tokens) :
    ∃ used' follow step', tokens = used' ++ follow ∧ Grammar.Step used' step' ∧
      step'.term = step.term ∧ Agree step.step step'.step ∧ Spaced .operand rest follow := by
  have index : ∀ {rule part : Rule} {line line' : Nat} {token next : Token},
      next.kind = token.kind → rule ≠ .term → part ≠ .term →
      Agree (.node rule line [Grammar.leaf part token])
        (.node rule line' [Grammar.leaf part next]) :=
    fun same plain inner => (LevelAll.single (agree_production same inner)).node _ _ _ plain
  have splat : ∀ {rule : Rule} {line line' : Nat}, rule ≠ .term →
      Agree (.node rule line []) (.node rule line' []) :=
    fun plain => LevelAll.nil.node _ _ _ plain
  cases taken with
  | attr steps is =>
      obtain ⟨dot, key, follow, rfl, steps, same, spaced⟩ :=
        dot_respace steps is rfl ⟨nofun, nofun⟩ spaced
      exact ⟨[dot, key], follow, _, rfl, .attr steps same, rfl,
        index (same.trans is.symm) nofun nofun, spaced⟩
  | number steps is =>
      obtain ⟨dot, key, follow, rfl, steps, same, spaced⟩ :=
        dot_respace steps is rfl ⟨nofun, nofun⟩ spaced
      exact ⟨[dot, key], follow, _, rfl, .number steps same, rfl,
        index (same.trans is.symm) nofun nofun, spaced⟩
  | attrSplat steps is =>
      obtain ⟨dot, star, follow, rfl, steps, same, spaced⟩ :=
        dot_respace steps is rfl ⟨nofun, nofun⟩ spaced
      exact ⟨[dot, star], follow, _, rfl, .attrSplat steps same, rfl, splat nofun, spaced⟩
  | int opens is closes =>
      obtain ⟨opening, key, closing, follow, rfl, opens, same, closes, spaced⟩ :=
        bracket_respace opens is closes rfl ⟨nofun, nofun⟩ spaced
      exact ⟨[opening, key, closing], follow, _, rfl, .int opens same closes, rfl,
        index (same.trans is.symm) nofun nofun, spaced⟩
  | string opens is closes =>
      obtain ⟨opening, key, closing, follow, rfl, opens, same, closes, spaced⟩ :=
        bracket_respace opens is closes rfl ⟨nofun, nofun⟩ spaced
      exact ⟨[opening, key, closing], follow, _, rfl, .string opens same closes, rfl,
        index (same.trans is.symm) nofun nofun, spaced⟩
  | fullSplat opens is closes =>
      obtain ⟨opening, star, closing, follow, rfl, opens, same, closes, spaced⟩ :=
        bracket_respace opens is closes rfl ⟨nofun, nofun⟩ spaced
      exact ⟨[opening, star, closing], follow, _, rfl, .fullSplat opens same closes, rfl,
        splat nofun, spaced⟩

/-- A step from terms that agree. Both are counted alike, so that both fit or neither does. -/
theorem agree_project {used' : List Token} {step step' : Projection} {line line' height : Nat}
    {term term' : Tree} (taken : Grammar.Step used step) (taken' : Grammar.Step used' step')
    (same : step'.term = step.term) (steps : Agree step.step step'.step) (agree : Agree term term')
    (counted : Counted height term) (counted' : Counted height term') :
    Agree (project line term step) (project line' term' step') where
  alike := by
    have inside := LevelAll.cons agree (.cons steps .nil)
    have both := LevelAll.single (inside.node step.term line line' (step_fitting taken).2)
    rw [project, project, same]
    exact both.toAgreeAll.node .term line line'
  fits := by
    have first : Counted (height + 2) (project line term step) := counted.step taken
    have second : Counted (height + 2) (project line' term' step') := counted'.step taken'
    rw [fitting_project_iff taken, fitting_project_iff taken', first.fits_iff, second.fits_iff]
    exact And.imp id agree.fits
  same := by
    rw [height_project_eq, height_project_eq, agree.same, steps.same]

theorem steps_respace {line line' height : Nat} {term last term' : Tree}
    (steps : Grammar.Steps line used term last) (agree : Agree term term')
    (counted : Counted height term) (counted' : Counted height term')
    (spaced : Spaced .operand (used ++ rest) tokens) :
    Respaced (fun used last' => Grammar.Steps line' used term' last') last rest tokens := by
  induction steps generalizing term' height tokens with
  | none => exact ⟨[], tokens, term', rfl, .none, agree, spaced⟩
  | @more _ _ step _ _ taken _ ih =>
      rw [List.append_assoc] at spaced
      obtain ⟨used, _, step', rfl, taken', same, steps, spaced⟩ := step_respace taken spaced
      -- Both counts go up by two, so that they stay the same whatever the terms are.
      have next : Agree (project line _ step) (project line' term' step') :=
        agree_project taken taken' same steps agree counted counted'
      obtain ⟨used', follow, last, rfl, more, agree, spaced⟩ :=
        ih next (counted.step taken) (counted'.step taken') spaced
      exact ⟨used ++ used', follow, last, by simp, .more taken' more, agree, spaced⟩

theorem term_respace (respaces : Respaces Value) (opens : Grammar.Opens Value)
    (whole : ∀ ⦃used tree⦄, Value used tree → Whole tree) (term : Grammar.Term Value used tree)
    (aligned : Aligned side (used ++ rest) tokens) :
    Respaced (Grammar.Term Value) tree rest tokens := by
  obtain @⟨start, _, children, _, first, steps⟩ := term
  rw [List.append_assoc] at aligned
  obtain ⟨used, _, others, rfl, first', all, spaced⟩ :=
    primary_respace respaces opens whole first aligned
  have same : (node .term (Grammar.line start) children).height =
      (node .term (Grammar.line used) others).height := by
    rw [height_node, height_node, all.same]
  have agree : Agree (node .term (Grammar.line start) children)
      (node .term (Grammar.line used) others) := {
    alike := all.toAgreeAll.node .term _ _
    fits := by
      rw [fitting_of_not_projected (primary_not_projected whole first),
        fitting_of_not_projected (primary_not_projected whole first')]
      exact all.fits
    same }
  have counted := primary_counted (Grammar.line start) whole first
  have counted' := primary_counted (Grammar.line used) whole first'
  rw [← same] at counted'
  obtain ⟨used', follow, last, rfl, more, agree, spaced⟩ :=
    steps_respace steps agree counted counted' spaced
  exact ⟨used ++ used', follow, last, by simp, .mk first' more, agree, spaced⟩

theorem operand_respace (respaces : Respaces Value) (opens : Grammar.Opens Value)
    (whole : ∀ ⦃used tree⦄, Value used tree → Whole tree) : Respaces (Grammar.Operand Value) := by
  intro used tree operand side rest tokens fresh aligned
  cases operand with
  | plain term =>
      obtain ⟨used, follow, last, rfl, term, agree, spaced⟩ :=
        term_respace respaces opens whole term aligned
      exact ⟨used, follow, last, rfl, .plain term, agree, spaced⟩
  | @signed sign used tree signs term =>
      have after : side.after sign.kind = .opening := by
        rcases signs with is | is
        · rw [is]
          cases side with
          | operand => exact absurd rfl fresh
          | _ => rfl
        · rw [is]
          cases side with
          | _ => rfl
      obtain ⟨first, _, rfl, same, spaced⟩ := aligned.take rfl
      rw [after] at spaced
      obtain ⟨token, others, rfl, begins⟩ := term.opens
      have begins := Grammar.opensExpr_of_opensTerm begins
      have aligned := spaced.aligned (by decide)
        (Grammar.ne_of_opensExpr begins rfl) (Grammar.ne_of_opensExpr begins rfl)
      obtain ⟨used, follow, last, rfl, term, agree, spaced⟩ :=
        term_respace respaces opens whole term aligned
      have inside := LevelAll.cons (agree_leaf same) (.cons agree .nil)
      exact ⟨first :: used, follow, _, rfl, .signed (by rwa [same]) term,
        inside.node .unary _ _ nofun, spaced⟩

theorem operation_respace (respaces : Respaces Value) (opens : Grammar.Opens Value)
    (whole : ∀ ⦃used tree⦄, Value used tree → Whole tree) :
    Respaces (Grammar.Operation Value) := by
  intro used tree operation side rest tokens fresh aligned
  cases operation with
  | single operand =>
      obtain ⟨used, follow, last, rfl, operand, agree, spaced⟩ :=
        operand_respace respaces opens whole operand fresh aligned
      exact ⟨used, follow, last, rfl, .single operand, agree, spaced⟩
  | @binary _ lines _ sign _ _ operand joins newlines item =>
      simp only [List.append_assoc, List.cons_append] at aligned
      obtain ⟨left, _, leftTree, rfl, operand, agreeLeft, spaced⟩ :=
        operand_respace respaces opens whole operand fresh aligned
      have counts : sign.kind ≠ .newline ∧ sign.kind ≠ .rightParen := by
        constructor
        · intro same
          rw [same] at joins
          cases joins
        · intro same
          rw [same] at joins
          cases joins
      obtain ⟨first, _, rfl, same, spaced⟩ := spaced.take rfl (by decide) counts.1 counts.2
      rw [Side.after_operator joins] at spaced
      obtain ⟨token, others, rfl, begins⟩ := opens item
      obtain ⟨feeds, _, rfl, again, _, aligned⟩ :=
        spaced.takeLines newlines (pastNewlines_of_opens begins)
      obtain ⟨right, follow, rightTree, rfl, item, agreeRight, spaced⟩ :=
        respaces item (Side.run_newlines_ne Side.free_ne newlines) aligned
      have symbol : Agree (Grammar.leaf .binaryOperator sign)
          (Grammar.leaf .binaryOperator first) := agree_production same nofun
      have tall : 2 ≤ (Grammar.leaf .binaryOperator sign).height :=
        Nat.le_of_eq (height_production .binaryOperator sign).symm
      have behind := LevelAll.of_tall symbol tall
        ((agreeAll_newLines lines feeds).append (LevelAll.single agreeRight).toAgreeAll)
      have inside := LevelAll.cons agreeLeft
        (.single (behind.node .binaryTerm sign.place.line first.place.line nofun))
      exact ⟨left ++ first :: (feeds ++ right), follow, _, by simp,
        .binary operand (by rwa [same]) again item, inside.node .binary _ _ nofun, spaced⟩

theorem expr_respace (depth : Nat) : Respaces (Grammar.Expr depth) := by
  induction depth with
  | zero => exact nofun
  | succ depth ih =>
      exact operation_respace ih (Grammar.Expr.opens depth) fun _ _ => expr_whole depth

/-! ### Statements -/

/-- No newline begins a statement. -/
theorem past_of_named (named : Grammar.Named Item) (item : Item used tree) :
    PastNewlines (used ++ rest) := by
  obtain ⟨first, others, name, rfl, is⟩ := named item
  exact pastNewlines_of_kind is nofun

theorem stmt_respace (respaces : Respaces Value) (opens : Grammar.Opens Value)
    (nested : Respaces Nested) : Respaces (Grammar.Stmt Value Nested) := by
  intro used tree stmt side rest tokens fresh aligned
  cases stmt with
  | @attr key _ _ _ _ named assigns item =>
      obtain ⟨name, _, rfl, same, spaced⟩ := aligned.take named
      rw [side.after_closing rfl] at spaced
      obtain ⟨sign, _, rfl, same', spaced⟩ :=
        spaced.take assigns (by decide) (by decide) (by decide)
      obtain ⟨value, follow, _, rfl, item, agree, spaced⟩ :=
        respaces.spaced opens item Side.opening_ne (by decide) spaced
      have title : Agree (Grammar.leaf .identifier key) (Grammar.leaf .identifier name) :=
        agree_production (same.trans named.symm) nofun
      have inside := LevelAll.cons title (.cons agree .nil)
      exact ⟨name :: sign :: value, follow, _, rfl, .attr same same' item,
        inside.node .attr _ _ nofun, spaced⟩
  | block inner =>
      obtain ⟨used, follow, other, rfl, inner, agree, spaced⟩ := nested inner fresh aligned
      exact ⟨used, follow, other, rfl, .block inner, agree, spaced⟩

theorem follow_respace (respaces : Respaces Item) (named : Grammar.Named Item)
    (follow : Grammar.Follow Item used trees) (past : PastNewlines rest)
    (within : ∀ token ∈ rest.head?, token.kind ≠ .rightParen)
    (spaced : Spaced .operand (used ++ rest) tokens) :
    RespacedAll (Grammar.Follow Item) trees rest tokens := by
  induction follow generalizing tokens with
  | none newlines =>
      obtain ⟨feeds, follow, rfl, again, allowed, aligned⟩ := spaced.takeLines newlines past
      have both : _ = [] ↔ feeds = [] := allowed.both (by decide) within
      exact ⟨feeds, follow, _, _, rfl, .none again, levelAll_newLines both, aligned⟩
  | @more lines _ _ _ _ nonempty newlines item _ ih =>
      simp only [List.append_assoc] at spaced
      obtain ⟨feeds, _, rfl, again, allowed, aligned⟩ :=
        spaced.takeLines newlines (past_of_named named item)
      have nonempty' := allowed.nonempty nonempty
      have fresh : Side.operand.run lines ≠ .operand := by
        rw [Side.run_newlines newlines, if_neg nonempty]
        decide
      obtain ⟨used, _, _, rfl, item, agree, spaced⟩ := respaces item fresh aligned
      obtain ⟨used', follow, _, behind, rfl, more, all, aligned⟩ := ih spaced
      have between := levelAll_newLines (iff_of_false nonempty nonempty')
      exact ⟨feeds ++ (used ++ used'), follow, _, behind, by simp,
        .more nonempty' again item more, between.append (.cons agree all), aligned⟩

theorem body_respace (respaces : Respaces Item) (named : Grammar.Named Item)
    (body : Grammar.Body Item used trees) (past : PastNewlines rest)
    (within : ∀ token ∈ rest.head?, token.kind ≠ .rightParen)
    (spaced : Spaced .opening (used ++ rest) tokens) :
    RespacedAll (Grammar.Body Item) trees rest tokens := by
  cases body with
  | blank newlines =>
      obtain ⟨feeds, follow, rfl, again, allowed, aligned⟩ := spaced.takeLines newlines past
      have both : used = [] ↔ feeds = [] := allowed.both (by decide) within
      exact ⟨feeds, follow, _, _, rfl, .blank again, levelAll_newLines both, aligned⟩
  | @items lead _ _ _ _ leading item more =>
      simp only [List.append_assoc] at spaced
      obtain ⟨feeds, _, rfl, again, allowed, aligned⟩ :=
        spaced.takeLines leading (past_of_named named item)
      have both : lead = [] ↔ feeds = [] := by
        refine allowed.both (by decide) ?_
        obtain ⟨first, others, name, rfl, is⟩ := named item
        intro token same
        cases same
        rw [is]
        exact nofun
      obtain ⟨used, _, _, rfl, item, agree, spaced⟩ :=
        respaces item (Side.run_newlines_ne Side.opening_ne leading) aligned
      obtain ⟨used', follow, _, behind, rfl, more, all, aligned⟩ :=
        follow_respace respaces named more past within spaced
      exact ⟨feeds ++ (used ++ used'), follow, _, behind, by simp, .items again item more,
        (levelAll_newLines both).append (.cons agree all), aligned⟩

theorem labels_respace (labels : Grammar.Labels used trees) {opening : Token}
    (opens : opening.kind = .leftBrace)
    (spaced : Spaced .operand (used ++ opening :: rest) tokens) :
    RespacedAll Grammar.Labels trees (opening :: rest) tokens := by
  induction labels generalizing tokens with
  | none =>
      have aligned := spaced.aligned (by decide) (by rw [opens]; decide) (by rw [opens]; decide)
      exact ⟨[], tokens, [], .operand, rfl, .none, .nil, aligned⟩
  | @more label _ _ _ named _ ih =>
      have counts : label.kind ≠ .newline ∧ label.kind ≠ .rightParen := by
        cases named with
        | name is | string is =>
            rw [is]
            exact ⟨nofun, nofun⟩
      rw [List.cons_append] at spaced
      have aligned := spaced.aligned (by decide) counts.1 counts.2
      obtain ⟨next, _, _, rfl, named, agree, spaced⟩ := key_respace named aligned
      obtain ⟨used, follow, _, behind, rfl, more, all, aligned⟩ := ih spaced
      exact ⟨next :: used, follow, _, behind, rfl, .more named more, .cons agree all, aligned⟩

theorem labelled_respace (respaces : Respaces Item) (named : Grammar.Named Item) :
    Respaces (Grammar.Labelled Item) := by
  intro used tree labelled side rest tokens _ aligned
  obtain @⟨title, opening, closing, _, _, inner, _, _, is, labels, opens, body, closes⟩ := labelled
  simp only [List.cons_append, List.append_assoc, List.nil_append] at aligned
  obtain ⟨name, _, rfl, same, spaced⟩ := aligned.take is
  rw [side.after_closing rfl] at spaced
  obtain ⟨used, _, _, _, rfl, labels, allLabels, aligned⟩ := labels_respace labels opens spaced
  obtain ⟨first, _, rfl, opens, spaced⟩ := aligned.take opens
  rw [Side.after_leftBrace] at spaced
  have past : PastNewlines (closing :: rest) := pastNewlines_of_kind closes (by decide)
  have within : ∀ token ∈ (closing :: rest).head?, token.kind ≠ .rightParen := by
    intro token first
    cases first
    rw [closes]
    decide
  obtain ⟨items, _, others, behind, rfl, body, all, aligned⟩ :=
    body_respace respaces named body past within spaced
  obtain ⟨final, follow, rfl, closes, spaced⟩ := aligned.take closes
  rw [behind.after_closing rfl] at spaced
  have titled : Agree (Grammar.leaf .identifier title) (Grammar.leaf .identifier name) :=
    agree_production (same.trans is.symm) nofun
  have inside := LevelAll.cons titled
    (allLabels.append (all.body (Grammar.line inner) (Grammar.line items)))
  exact ⟨name :: (used ++ first :: (items ++ [final])), follow, _, by simp,
    .mk same labels opens body closes, inside.node .block _ _ nofun, spaced⟩

theorem block_respace (depth : Nat) : Respaces (Grammar.Block depth) := by
  induction depth with
  | zero => exact nofun
  | succ depth ih =>
      exact labelled_respace (stmt_respace (expr_respace depth) (Grammar.Expr.opens depth) ih)
        (Grammar.Stmt.named (Grammar.Block.named depth))

end Phrases

/-! ### Documents -/

theorem splitEnd_beforeEnd (tokens : List Token) :
    ∃ rest, (splitEnd tokens).1 = Token.beforeEnd tokens ++ rest ∧
      ∀ token ∈ rest.head?, token.kind = .eof := by
  let inside (token : Token) : Bool := token.kind ≠ .eof
  refine ⟨(splitEnd tokens).1.dropWhile inside, ?_, ?_⟩
  · rw [← beforeEnd_splitEnd]
    exact List.takeWhile_append_dropWhile.symm
  · intro token first
    have outside := List.head?_dropWhile_not inside (splitEnd tokens).1
    rw [Option.mem_def.mp first] at outside
    simpa [inside] using outside

/-- The tokens are accepted if and only if those before the end are a document in which the terms
that came about by steps fit. -/
theorem ofTokens_eq_ok_iff {tokens : List Token} {tree : Tree} :
    ofTokens tokens = .ok tree ↔
      ∃ trees, Grammar.Document maxNesting (Token.beforeEnd tokens) trees ∧ FittingAll trees ∧
        tree = Grammar.document
          (Reader.ahead (splitEnd tokens).2 (splitEnd tokens).1).place.line trees := by
  obtain ⟨rest, whole, ends⟩ := splitEnd_beforeEnd tokens
  constructor
  · intro read
    have low := ofTokens_low read
    obtain ⟨line, trees, body, rfl⟩ := ofTokens_beforeEnd read
    have stated := @Grammar.Stmt.stated (Grammar.Expr maxNesting) _
      (Grammar.Block.stated maxNesting)
    have fits := fittingAll_of_document stated body low.fits
    have again := ofTokens_takes_fitting whole ends body fits
    exact ⟨trees, body, fits, Except.ok.inj (read.symm.trans again)⟩
  · rintro ⟨trees, body, fits, rfl⟩
    exact ofTokens_takes_fitting whole ends body fits

/-- Documents of trees that agree. -/
theorem alike_document {line line' : Nat} {trees others : List Tree} (all : LevelAll trees others) :
    Alike (Grammar.document line trees).inline (Grammar.document line' others).inline := by
  have same := any_isStatement_of_alike all.alike
  rw [any_isStatement_inlineAll, any_isStatement_inlineAll] at same
  unfold Grammar.document
  rw [same]
  split
  · have body := LevelAll.single (all.node .body line line' nofun)
    exact (body.node .start line line' nofun).alike
  · exact (LevelAll.nil.node .start line line' nofun).alike

/-- What is accepted is accepted however it is spaced, as a tree that differs in places and newlines
only. -/
theorem ofTokens_respaced {tokens others : List Token} {tree : Tree}
    (spaced : Spaced .opening (Token.beforeEnd tokens) (Token.beforeEnd others))
    (read : ofTokens tokens = .ok tree) :
    ∃ other, ofTokens others = .ok other ∧ Alike tree.inline other.inline := by
  obtain ⟨trees, body, fits, rfl⟩ := ofTokens_eq_ok_iff.mp read
  rw [← List.append_nil (Token.beforeEnd tokens)] at spaced
  obtain ⟨used, _, trees', _, whole, body', all, aligned⟩ :=
    body_respace (stmt_respace (expr_respace maxNesting) (Grammar.Expr.opens maxNesting)
      (block_respace maxNesting)) (Grammar.Stmt.named (Grammar.Block.named maxNesting)) body .nil
        nofun spaced
  cases aligned
  rw [List.append_nil] at whole
  subst whole
  exact ⟨_, ofTokens_eq_ok_iff.mpr ⟨trees', body', all.fits fits, rfl⟩, alike_document all⟩

end ConfigLang.Tree
