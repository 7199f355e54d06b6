import ConfigLang.Proofs.Grammar
import Mathlib.Computability.Language
/-!
The grammar as it is written down, as languages over the kinds of tokens. The relation between
tokens and trees has the same documents.
-/

set_option autoImplicit false

namespace ConfigLang.Ebnf

open scoped Computability

/-! ### Productions -/

/-- A single token that passes a test. -/
def terminal (test : Kind → Prop) : Language Kind :=
  {word | ∃ kind, word = [kind] ∧ test kind}

def mark (kind : Kind) : Language Kind :=
  terminal (· = kind)

def ident : Language Kind :=
  terminal fun kind => ∃ name, kind = .ident name

def int : Language Kind :=
  terminal fun kind => ∃ value, kind = .int value

def float : Language Kind :=
  terminal fun kind => ∃ value, kind = .float value

def string : Language Kind :=
  terminal fun kind => ∃ contents, kind = .string contents

/-- `Ident | StringLit` -/
def key : Language Kind :=
  ident + string

def binop : Language Kind :=
  terminal fun kind => kind.isBinaryOperator = true

/-- `language?` -/
def optional (language : Language Kind) : Language Kind :=
  1 + language

/-- `NL*` -/
def lines : Language Kind :=
  (mark .newline)∗

/-- `NL+` -/
def someLines : Language Kind :=
  mark .newline * lines

/-- `expr NL* (',' NL* expr NL*)* (',' NL*)?` -/
def items (expr : Language Kind) : Language Kind :=
  expr * (lines * ((mark .comma * (lines * (expr * lines)))∗ * optional (mark .comma * lines)))

/-- `(Ident | StringLit) ('=' | ':') expr` -/
def elem (expr : Language Kind) : Language Kind :=
  key * ((mark .assign + mark .colon) * expr)

/-- `',' NL* | NL+` -/
def sep : Language Kind :=
  mark .comma * lines + someLines

/-- `(elem (sep elem)* sep?)?` -/
def elems (expr : Language Kind) : Language Kind :=
  optional (elem expr * ((sep * elem expr)∗ * optional sep))

/-- Newlines may stand after the mark that opens what is enclosed. -/
def enclosed (opening : Kind) (inner : Language Kind) (closing : Kind) : Language Kind :=
  mark opening * (lines * (inner * mark closing))

/-- `'(' NL* expr NL* ')'` -/
def group (expr : Language Kind) : Language Kind :=
  enclosed .leftParen (expr * lines) .rightParen

/-- `Ident '(' NL* items? ')'` -/
def call (expr : Language Kind) : Language Kind :=
  ident * enclosed .leftParen (optional (items expr)) .rightParen

/-- `'[' NL* items? ']'` -/
def tuple (expr : Language Kind) : Language Kind :=
  enclosed .leftBracket (optional (items expr)) .rightBracket

/-- `'{' NL* (elem (sep elem)* sep?)? '}'` -/
def object (expr : Language Kind) : Language Kind :=
  enclosed .leftBrace (elems expr) .rightBrace

def primary (expr : Language Kind) : Language Kind :=
  int + (float + (string + (ident + (group expr + (call expr + (tuple expr + object expr))))))

/-- `'.' Ident | '.' Int | '.' '*' | '[' (Int | StringLit | '*') ']'` -/
def proj : Language Kind :=
  mark .dot * (ident + (int + mark .star)) +
    mark .leftBracket * ((int + (string + mark .star)) * mark .rightBracket)

/-- `('-' | '!')? primary proj*` -/
def operand (expr : Language Kind) : Language Kind :=
  optional (mark .minus + mark .bang) * (primary expr * proj∗)

/-- `operand (binop NL* expr)?` -/
def operation (expr : Language Kind) : Language Kind :=
  operand expr * optional (binop * (lines * expr))

/-- `expr`, with at most so many nested one in another -/
def expr : Nat → Language Kind
  | 0 => 0
  | depth + 1 => operation (expr depth)

/-- `NL* (stmt (NL+ stmt)*)? NL*` -/
def body (stmt : Language Kind) : Language Kind :=
  lines * (optional (stmt * (someLines * stmt)∗) * lines)

/-- `Ident '=' expr`, or a block -/
def stmt (expr block : Language Kind) : Language Kind :=
  ident * (mark .assign * expr) + block

/-- `Ident (Ident | StringLit)* '{' document '}'` -/
def labelled (stmt : Language Kind) : Language Kind :=
  ident * (key∗ * (mark .leftBrace * (body stmt * mark .rightBrace)))

/-- A block, with at most so many expressions and blocks nested one in another. -/
def block : Nat → Language Kind
  | 0 => 0
  | depth + 1 => labelled (stmt (expr depth) (block depth))

/-- A document, with at most so many expressions and blocks nested one in another. -/
def document (depth : Nat) : Language Kind :=
  body (stmt (expr depth) (block depth))

/-! ### Tokens of a language -/

/-- The kinds of the tokens are a word of the language. -/
def Covers (language : Language Kind) (tokens : List Token) : Prop :=
  tokens.map Token.kind ∈ language

section Tokens

variable {language first second : Language Kind} {tokens before behind : List Token}

theorem covers_one : Covers 1 tokens ↔ tokens = [] :=
  List.map_eq_nil_iff

theorem covers_add : Covers (first + second) tokens ↔ Covers first tokens ∨ Covers second tokens :=
  Iff.rfl

theorem covers_optional :
    Covers (optional language) tokens ↔ tokens = [] ∨ Covers language tokens :=
  or_congr_left covers_one

theorem covers_mul :
    Covers (first * second) tokens ↔
      ∃ before behind, tokens = before ++ behind ∧ Covers first before ∧ Covers second behind := by
  constructor
  · rintro ⟨left, inLeft, right, inRight, whole⟩
    obtain ⟨before, behind, rfl, rfl, rfl⟩ := List.map_eq_append_iff.mp whole.symm
    exact ⟨before, behind, rfl, inLeft, inRight⟩
  · rintro ⟨before, behind, rfl, inFirst, inSecond⟩
    exact ⟨_, inFirst, _, inSecond, List.map_append.symm⟩

theorem covers_terminal {test : Kind → Prop} :
    Covers (terminal test) tokens ↔ ∃ token, tokens = [token] ∧ test token.kind := by
  constructor
  · rintro ⟨kind, word, passes⟩
    obtain ⟨token, rfl, rfl⟩ := List.map_eq_singleton_iff.mp word
    exact ⟨token, rfl, passes⟩
  · rintro ⟨token, rfl, passes⟩
    exact ⟨token.kind, rfl, passes⟩

theorem covers_mark {kind : Kind} :
    Covers (mark kind) tokens ↔ ∃ token, tokens = [token] ∧ token.kind = kind :=
  covers_terminal

theorem covers_star_nil : Covers language∗ [] :=
  Language.nil_mem_kstar language

theorem covers_star_append (one : Covers language before) (others : Covers language∗ behind) :
    Covers language∗ (before ++ behind) := by
  rw [← Language.one_add_self_mul_kstar_eq_kstar, covers_add, covers_mul]
  exact .inr ⟨before, behind, rfl, one, others⟩

/-- What holds of no token, and of one more word before others of which it holds, holds of every
repetition. -/
theorem covers_star_induction {motive : List Token → Prop} (nil : motive [])
    (step : ∀ before behind, Covers language before → motive behind → motive (before ++ behind))
    (repetition : Covers language∗ tokens) : motive tokens := by
  obtain ⟨words, whole, inner⟩ := Language.mem_kstar.mp repetition
  induction words generalizing tokens with
  | nil =>
      obtain rfl := List.map_eq_nil_iff.mp whole
      exact nil
  | cons word words ih =>
      obtain ⟨before, behind, rfl, same, rest⟩ := List.map_eq_append_iff.mp whole
      rw [List.forall_mem_cons, ← same] at inner
      refine step before behind inner.1 (ih ?_ rest inner.2)
      exact Language.mem_kstar.mpr ⟨words, rest, inner.2⟩

end Tokens

/-- A language has the same words as a phrase. -/
def Same {α : Type} (language : Language Kind) (Phrase : List Token → α → Prop) : Prop :=
  ∀ tokens, Covers language tokens ↔ ∃ result, Phrase tokens result

section Phrases

variable {value nested : Language Kind} {Value Nested Item : Grammar.Phrase} {tokens : List Token}

theorem covers_lines : Covers lines tokens ↔ Grammar.Newlines tokens := by
  constructor
  · refine covers_star_induction Grammar.Newlines.nil ?_
    intro before behind line newlines
    obtain ⟨token, rfl, newline⟩ := covers_mark.mp line
    exact List.forall_mem_cons.mpr ⟨newline, newlines⟩
  · intro newlines
    induction tokens with
    | nil => exact covers_star_nil
    | cons token tokens ih =>
        obtain ⟨newline, others⟩ := List.forall_mem_cons.mp newlines
        exact covers_star_append (covers_mark.mpr ⟨token, rfl, newline⟩) (ih others)

theorem covers_someLines : Covers someLines tokens ↔ tokens ≠ [] ∧ Grammar.Newlines tokens := by
  simp only [someLines, covers_mul, covers_mark, covers_lines]
  constructor
  · rintro ⟨_, others, rfl, ⟨token, rfl, newline⟩, newlines⟩
    exact ⟨List.cons_ne_nil _ _, List.forall_mem_cons.mpr ⟨newline, newlines⟩⟩
  · rintro ⟨nonempty, newlines⟩
    obtain ⟨token, others, rfl⟩ := List.exists_cons_of_ne_nil nonempty
    obtain ⟨newline, others⟩ := List.forall_mem_cons.mp newlines
    exact ⟨[token], _, rfl, ⟨token, rfl, newline⟩, others⟩

/-! ### Items -/

theorem items_of_covers (same : Same value Value) (items : Covers (Ebnf.items value) tokens) :
    ∃ trees, Grammar.Items Value tokens trees := by
  simp only [Ebnf.items, covers_mul, covers_optional, covers_mark, covers_lines] at items
  obtain ⟨first, _, rfl, item, trail, _, rfl, trailing, others, last, rfl, more, ends⟩ := items
  obtain ⟨tree, item⟩ := (same first).mp item
  -- The item before a repetition is part of the statement, as each comma needs one before it.
  have loop : ∀ first tree, Value first tree → ∀ trail, Grammar.Newlines trail →
      ∃ trees, Grammar.Items Value (first ++ (trail ++ (others ++ last))) trees := by
    refine covers_star_induction (motive := fun others => ∀ first tree, Value first tree →
      ∀ trail, Grammar.Newlines trail →
        ∃ trees, Grammar.Items Value (first ++ (trail ++ (others ++ last))) trees) ?_ ?_ more
    · intro first tree item trail trailing
      rcases ends with rfl | ⟨_, lead, rfl, ⟨comma, rfl, separates⟩, leading⟩
      · exact ⟨_, by simpa using Grammar.Items.last item trailing⟩
      · exact ⟨_, Grammar.Items.comma item trailing separates leading⟩
    · intro before behind next ih first tree item trail trailing
      simp only [covers_mul, covers_mark, covers_lines] at next
      obtain ⟨_, _, rfl, ⟨comma, rfl, separates⟩, lead, _, rfl, leading, second, after, rfl, inner,
        between⟩ := next
      obtain ⟨secondTree, inner⟩ := (same second).mp inner
      obtain ⟨trees, follow⟩ := ih second secondTree inner after between
      exact ⟨_, by simpa using Grammar.Items.more item trailing separates leading follow⟩
  exact loop first tree item trail trailing

theorem covers_of_items (same : Same value Value) {trees : List Tree}
    (items : Grammar.Items Value tokens trees) : Covers (Ebnf.items value) tokens := by
  simp only [Ebnf.items, covers_mul, covers_optional, covers_mark, covers_lines]
  induction items with
  | last item trailing =>
      exact ⟨_, _, rfl, (same _).mpr ⟨_, item⟩, _, [], (List.append_nil _).symm, trailing, [], [],
        rfl, covers_star_nil, .inl rfl⟩
  | comma item trailing separates leading =>
      exact ⟨_, _, rfl, (same _).mpr ⟨_, item⟩, _, _, rfl, trailing, [], _, rfl, covers_star_nil,
        .inr ⟨[_], _, rfl, ⟨_, rfl, separates⟩, leading⟩⟩
  | @more _ _ lead _ _ _ comma item trailing separates leading _ ih =>
      obtain ⟨second, _, rfl, inner, after, _, rfl, between, others, last, rfl, more, ends⟩ := ih
      refine ⟨_, _, rfl, (same _).mpr ⟨_, item⟩, _, _, rfl, trailing,
        comma :: (lead ++ (second ++ after)) ++ others, last, by simp, ?_, ends⟩
      refine covers_star_append ?_ more
      simp only [covers_mul, covers_mark, covers_lines]
      exact ⟨[comma], _, rfl, ⟨comma, rfl, separates⟩, lead, _, rfl, leading, second, after, rfl,
        inner, between⟩

theorem same_items (same : Same value Value) : Same (items value) (Grammar.Items Value) :=
  fun _ => ⟨items_of_covers same, fun ⟨_, items⟩ => covers_of_items same items⟩

theorem same_optional {language : Language Kind} {Inner : Grammar.Phrases}
    (same : Same language Inner) : Same (optional language) (Grammar.Optional Inner) := by
  intro tokens
  rw [covers_optional, same]
  constructor
  · rintro (rfl | ⟨trees, inner⟩)
    · exact ⟨[], .none⟩
    · exact ⟨trees, .some inner⟩
  · rintro ⟨trees, inner⟩
    cases inner with
    | none => exact .inl rfl
    | some inner => exact .inr ⟨trees, inner⟩

theorem same_arguments (same : Same value Value) :
    Same (optional (items value)) (Grammar.Arguments Value) := by
  intro tokens
  rw [covers_optional, same_items same]
  constructor
  · rintro (rfl | ⟨trees, items⟩)
    · exact ⟨[], .none⟩
    · exact ⟨_, .some items⟩
  · rintro ⟨_, arguments⟩
    cases arguments with
    | none => exact .inl rfl
    | some items => exact .inr ⟨_, items⟩

/-! ### Elements -/

theorem covers_key :
    Covers key tokens ↔ ∃ token tree, tokens = [token] ∧ Grammar.Key token tree := by
  simp only [key, covers_add, ident, string, covers_terminal]
  constructor
  · rintro (⟨token, rfl, name, is⟩ | ⟨token, rfl, contents, is⟩)
    · exact ⟨token, _, rfl, .name is⟩
    · exact ⟨token, _, rfl, .string is⟩
  · rintro ⟨token, _, rfl, key⟩
    cases key with
    | name is => exact .inl ⟨token, rfl, _, is⟩
    | string is => exact .inr ⟨token, rfl, _, is⟩

theorem same_elem (same : Same value Value) : Same (elem value) (Grammar.Element Value) := by
  intro tokens
  simp only [elem, covers_mul, covers_key, covers_add, covers_mark]
  constructor
  · rintro ⟨_, _, rfl, ⟨key, keyTree, rfl, named⟩, _, inner, rfl, assigns, item⟩
    obtain ⟨tree, item⟩ := (same inner).mp item
    rcases assigns with ⟨sign, rfl, assign⟩ | ⟨sign, rfl, colon⟩
    · exact ⟨_, .mk named (.inl assign) item⟩
    · exact ⟨_, .mk named (.inr colon) item⟩
  · rintro ⟨_, @⟨key, sign, inner, keyTree, tree, named, assigns, item⟩⟩
    refine ⟨[key], _, rfl, ⟨key, keyTree, rfl, named⟩, [sign], inner, rfl, ?_,
      (same inner).mpr ⟨tree, item⟩⟩
    exact assigns.imp (fun assign => ⟨sign, rfl, assign⟩) fun colon => ⟨sign, rfl, colon⟩

theorem same_sep : Same sep Grammar.Separator := by
  intro tokens
  simp only [sep, covers_add, covers_mul, covers_mark, covers_lines, covers_someLines]
  constructor
  · rintro (⟨_, lines, rfl, ⟨comma, rfl, separates⟩, newlines⟩ | ⟨nonempty, newlines⟩)
    · exact ⟨_, .comma separates newlines⟩
    · exact ⟨_, .lines nonempty newlines⟩
  · rintro ⟨_, separator⟩
    cases separator with
    | comma separates newlines => exact .inl ⟨[_], _, rfl, ⟨_, rfl, separates⟩, newlines⟩
    | lines nonempty newlines => exact .inr ⟨nonempty, newlines⟩

theorem elements_of_covers (same : Same value Value) (elems : Covers (Ebnf.elems value) tokens) :
    ∃ trees, Grammar.Elements Value tokens trees := by
  simp only [Ebnf.elems, covers_mul, covers_optional, same_elem same _, same_sep _] at elems
  rcases elems with rfl | ⟨first, _, rfl, ⟨tree, item⟩, others, last, rfl, more, ends⟩
  · exact ⟨[], .none⟩
  refine covers_star_induction (motive := fun others => ∀ first tree,
    Grammar.Element Value first tree →
      ∃ trees, Grammar.Elements Value (first ++ (others ++ last)) trees) ?_ ?_ more first tree item
  · intro first tree item
    rcases ends with rfl | ⟨lines, separates⟩
    · exact ⟨_, by simpa using Grammar.Elements.last item⟩
    · exact ⟨_, by simpa using Grammar.Elements.more item separates .none⟩
  · intro before behind next ih first tree item
    simp only [covers_mul, same_elem same _, same_sep _] at next
    obtain ⟨separator, second, rfl, ⟨lines, separates⟩, secondTree, inner⟩ := next
    obtain ⟨trees, follow⟩ := ih second secondTree inner
    exact ⟨_, by simpa using Grammar.Elements.more item separates follow⟩

theorem covers_of_elements (same : Same value Value) {trees : List Tree}
    (elements : Grammar.Elements Value tokens trees) : Covers (Ebnf.elems value) tokens := by
  simp only [Ebnf.elems, covers_mul, covers_optional, same_elem same _, same_sep _]
  induction elements with
  | none => exact .inl rfl
  | last item =>
      exact .inr ⟨_, [], (List.append_nil _).symm, ⟨_, item⟩, [], [], rfl, covers_star_nil,
        .inl rfl⟩
  | @more _ separator _ _ _ _ item separates follow ih =>
      refine .inr ⟨_, _, rfl, ⟨_, item⟩, ?_⟩
      rcases ih with rfl | ⟨second, _, rfl, inner, others, last, rfl, more, ends⟩
      · exact ⟨[], separator, List.append_nil _, covers_star_nil, .inr ⟨_, separates⟩⟩
      · refine ⟨separator ++ second ++ others, last, by simp, covers_star_append ?_ more, ends⟩
        exact covers_mul.mpr ⟨separator, second, rfl, (same_sep _).mpr ⟨_, separates⟩,
          (same_elem same _).mpr inner⟩

theorem same_elems (same : Same value Value) : Same (elems value) (Grammar.Elements Value) :=
  fun _ => ⟨elements_of_covers same, fun ⟨_, elements⟩ => covers_of_elements same elements⟩

/-! ### Expressions -/

theorem covers_enclosed {opening closing : Kind} {inner : Language Kind} :
    Covers (enclosed opening inner closing) tokens ↔
      ∃ first lead inside last, tokens = first :: (lead ++ (inside ++ [last])) ∧
        first.kind = opening ∧ Grammar.Newlines lead ∧ Covers inner inside ∧
        last.kind = closing := by
  simp only [enclosed, covers_mul, covers_mark, covers_lines]
  constructor
  · rintro ⟨_, _, rfl, ⟨first, rfl, opens⟩, lead, _, rfl, leading, inside, _, rfl, inner, last, rfl,
      closes⟩
    exact ⟨first, lead, inside, last, rfl, opens, leading, inner, closes⟩
  · rintro ⟨first, lead, inside, last, rfl, opens, leading, inner, closes⟩
    exact ⟨[first], _, rfl, ⟨first, rfl, opens⟩, lead, _, rfl, leading, inside, [last], rfl, inner,
      last, rfl, closes⟩

theorem same_primary (same : Same value Value) :
    Same (primary value) (Grammar.Primary Value) := by
  intro tokens
  simp only [primary, covers_add, int, float, string, ident, group, call, tuple, object,
    covers_terminal, covers_enclosed, covers_mul, covers_lines, same _, same_elems same _]
  constructor
  · rintro (⟨token, rfl, _, is⟩ | ⟨token, rfl, _, is⟩ | ⟨token, rfl, _, is⟩ | ⟨token, rfl, _, is⟩ |
      group | call | tuple | object)
    · exact ⟨_, .int is⟩
    · exact ⟨_, .float is⟩
    · exact ⟨_, .string is⟩
    · exact ⟨_, .name is⟩
    · obtain ⟨opening, lead, _, closing, rfl, opens, leading, ⟨inner, trail, rfl, ⟨tree, item⟩,
        trailing⟩, closes⟩ := group
      exact ⟨_, by simpa using Grammar.Primary.group opens leading item trailing closes⟩
    · obtain ⟨_, _, rfl, ⟨function, rfl, name, named⟩, opening, lead, inner, closing, rfl, opens,
        leading, items, closes⟩ := call
      obtain ⟨trees, items⟩ := (same_arguments same inner).mp items
      exact ⟨_, .call named opens leading items closes⟩
    · obtain ⟨opening, lead, inner, closing, rfl, opens, leading, items, closes⟩ := tuple
      obtain ⟨trees, items⟩ := (same_optional (same_items same) inner).mp items
      exact ⟨_, .tuple opens leading items closes⟩
    · obtain ⟨opening, lead, inner, closing, rfl, opens, leading, ⟨trees, items⟩, closes⟩ := object
      exact ⟨_, .object opens leading items closes⟩
  · rintro ⟨_, primary⟩
    cases primary with
    | int is => exact .inl ⟨_, rfl, _, is⟩
    | float is => exact .inr (.inl ⟨_, rfl, _, is⟩)
    | string is => exact .inr (.inr (.inl ⟨_, rfl, _, is⟩))
    | name is => exact .inr (.inr (.inr (.inl ⟨_, rfl, _, is⟩)))
    | @group opening closing lead inner trail _ opens leading item trailing closes =>
        refine .inr (.inr (.inr (.inr (.inl ?_))))
        exact ⟨opening, lead, inner ++ trail, closing, by simp, opens, leading,
          ⟨inner, trail, rfl, ⟨_, item⟩, trailing⟩, closes⟩
    | @call function opening closing name lead inner _ named opens leading items closes =>
        refine .inr (.inr (.inr (.inr (.inr (.inl ?_)))))
        exact ⟨[function], _, rfl, ⟨function, rfl, name, named⟩, opening, lead, inner, closing, rfl,
          opens, leading, (same_arguments same inner).mpr ⟨_, items⟩, closes⟩
    | @tuple opening closing lead inner _ opens leading items closes =>
        refine .inr (.inr (.inr (.inr (.inr (.inr (.inl ?_))))))
        exact ⟨opening, lead, inner, closing, rfl, opens, leading,
          (same_optional (same_items same) inner).mpr ⟨_, items⟩, closes⟩
    | @object opening closing lead inner _ opens leading items closes =>
        refine .inr (.inr (.inr (.inr (.inr (.inr (.inr ?_))))))
        exact ⟨opening, lead, inner, closing, rfl, opens, leading, ⟨_, items⟩, closes⟩

theorem same_proj : Same proj Grammar.Step := by
  intro tokens
  simp only [proj, covers_add, covers_mul, covers_mark, int, string, ident, covers_terminal]
  constructor
  · rintro (⟨_, _, rfl, ⟨dot, rfl, steps⟩, key⟩ |
      ⟨_, _, rfl, ⟨opening, rfl, opens⟩, _, _, rfl, index, closing, rfl, closes⟩)
    · rcases key with ⟨key, rfl, name, is⟩ | ⟨key, rfl, value, is⟩ | ⟨star, rfl, is⟩
      · exact ⟨_, .attr steps is⟩
      · exact ⟨_, .number steps is⟩
      · exact ⟨_, .attrSplat steps is⟩
    · rcases index with ⟨index, rfl, value, is⟩ | ⟨index, rfl, contents, is⟩ | ⟨star, rfl, is⟩
      · exact ⟨_, .int opens is closes⟩
      · exact ⟨_, .string opens is closes⟩
      · exact ⟨_, .fullSplat opens is closes⟩
  · rintro ⟨_, step⟩
    cases step with
    | attr steps is => exact .inl ⟨[_], [_], rfl, ⟨_, rfl, steps⟩, .inl ⟨_, rfl, _, is⟩⟩
    | number steps is => exact .inl ⟨[_], [_], rfl, ⟨_, rfl, steps⟩, .inr (.inl ⟨_, rfl, _, is⟩)⟩
    | attrSplat steps is => exact .inl ⟨[_], [_], rfl, ⟨_, rfl, steps⟩, .inr (.inr ⟨_, rfl, is⟩)⟩
    | int opens is closes =>
        exact .inr ⟨[_], _, rfl, ⟨_, rfl, opens⟩, [_], [_], rfl, .inl ⟨_, rfl, _, is⟩,
          _, rfl, closes⟩
    | string opens is closes =>
        exact .inr ⟨[_], _, rfl, ⟨_, rfl, opens⟩, [_], [_], rfl, .inr (.inl ⟨_, rfl, _, is⟩),
          _, rfl, closes⟩
    | fullSplat opens is closes =>
        exact .inr ⟨[_], _, rfl, ⟨_, rfl, opens⟩, [_], [_], rfl, .inr (.inr ⟨_, rfl, is⟩),
          _, rfl, closes⟩

/-- Whatever the term, the same steps may follow it. -/
theorem covers_steps (line : Nat) (term : Tree) :
    Covers proj∗ tokens ↔ ∃ last, Grammar.Steps line tokens term last := by
  constructor
  · intro steps
    refine covers_star_induction (motive := fun tokens => ∀ term, ∃ last,
      Grammar.Steps line tokens term last) ?_ ?_ steps term
    · exact fun term => ⟨term, .none⟩
    · intro before behind taken ih term
      obtain ⟨step, taken⟩ := (same_proj before).mp taken
      obtain ⟨last, follow⟩ := ih (Tree.project line term step)
      exact ⟨last, .more taken follow⟩
  · rintro ⟨last, steps⟩
    induction steps with
    | none => exact covers_star_nil
    | more taken follow ih => exact covers_star_append ((same_proj _).mpr ⟨_, taken⟩) ih

theorem same_term (same : Same value Value) :
    Same (primary value * proj∗) (Grammar.Term Value) := by
  intro tokens
  rw [covers_mul]
  constructor
  · rintro ⟨start, steps, rfl, first, follow⟩
    obtain ⟨children, first⟩ := (same_primary same start).mp first
    obtain ⟨tree, follow⟩ := (covers_steps (Grammar.line start)
      (.node .term (Grammar.line start) children)).mp follow
    exact ⟨tree, .mk first follow⟩
  · rintro ⟨_, @⟨start, steps, _, _, first, follow⟩⟩
    exact ⟨start, steps, rfl, (same_primary same start).mpr ⟨_, first⟩,
      (covers_steps _ _).mpr ⟨_, follow⟩⟩

theorem same_operand (same : Same value Value) :
    Same (operand value) (Grammar.Operand Value) := by
  intro tokens
  rw [operand, covers_mul]
  simp only [covers_optional, covers_add, covers_mark, same_term same _]
  constructor
  · rintro ⟨_, used, rfl, sign, tree, term⟩
    rcases sign with rfl | ⟨sign, rfl, minus⟩ | ⟨sign, rfl, bang⟩
    · exact ⟨tree, .plain term⟩
    · exact ⟨_, .signed (.inl minus) term⟩
    · exact ⟨_, .signed (.inr bang) term⟩
  · rintro ⟨_, operand⟩
    cases operand with
    | plain term => exact ⟨[], _, rfl, .inl rfl, _, term⟩
    | @signed sign used _ signs term =>
        refine ⟨[sign], used, rfl, .inr ?_, _, term⟩
        exact signs.imp (fun minus => ⟨sign, rfl, minus⟩) fun bang => ⟨sign, rfl, bang⟩

theorem same_operation (same : Same value Value) :
    Same (operation value) (Grammar.Operation Value) := by
  intro tokens
  simp only [operation, covers_mul, same_operand same _, covers_optional, binop, covers_terminal,
    covers_lines, same _]
  constructor
  · rintro ⟨left, _, rfl, ⟨leftTree, operand⟩, joined⟩
    rcases joined with rfl | ⟨_, _, rfl, ⟨sign, rfl, joins⟩, lines, right, rfl, newlines, rightTree,
      rest⟩
    · exact ⟨leftTree, by simpa using Grammar.Operation.single operand⟩
    · exact ⟨_, @Grammar.Operation.binary _ left lines right _ _ _ operand joins newlines rest⟩
  · rintro ⟨_, operation⟩
    cases operation with
    | single operand => exact ⟨_, [], (List.append_nil _).symm, ⟨_, operand⟩, .inl rfl⟩
    | binary operand joins newlines rest =>
        exact ⟨_, _, rfl, ⟨_, operand⟩, .inr ⟨[_], _, rfl, ⟨_, rfl, joins⟩, _, _, rfl, newlines, _,
          rest⟩⟩

theorem same_expr (depth : Nat) : Same (expr depth) (Grammar.Expr depth) := by
  induction depth with
  | zero => exact fun tokens => ⟨fun absurd => absurd.elim, fun ⟨_, absurd⟩ => absurd.elim⟩
  | succ depth ih => exact same_operation ih

/-! ### Statements -/

theorem covers_labels : Covers key∗ tokens ↔ ∃ trees, Grammar.Labels tokens trees := by
  constructor
  · refine covers_star_induction (motive := fun tokens => ∃ trees, Grammar.Labels tokens trees)
      ⟨[], .none⟩ ?_
    intro before behind label labels
    obtain ⟨token, tree, rfl, named⟩ := covers_key.mp label
    obtain ⟨trees, follow⟩ := labels
    exact ⟨tree :: trees, .more named follow⟩
  · rintro ⟨trees, labels⟩
    induction labels with
    | none => exact covers_star_nil
    | @more label _ tree _ named follow ih =>
        exact covers_star_append (covers_key.mpr ⟨label, tree, rfl, named⟩) ih

theorem same_stmt (same : Same value Value) (sameNested : Same nested Nested) :
    Same (stmt value nested) (Grammar.Stmt Value Nested) := by
  intro tokens
  simp only [stmt, covers_add, covers_mul, ident, covers_terminal, covers_mark, same _,
    sameNested _]
  constructor
  · rintro (⟨_, _, rfl, ⟨key, rfl, name, named⟩, _, inner, rfl, ⟨sign, rfl, assigns⟩, tree, item⟩ |
      ⟨tree, inner⟩)
    · exact ⟨_, .attr named assigns item⟩
    · exact ⟨tree, .block inner⟩
  · rintro ⟨_, stmt⟩
    cases stmt with
    | attr named assigns item =>
        exact .inl ⟨[_], _, rfl, ⟨_, rfl, _, named⟩, [_], _, rfl, ⟨_, rfl, assigns⟩, _, item⟩
    | block inner => exact .inr ⟨_, inner⟩

theorem covers_follow {language : Language Kind} (same : Same language Item) :
    Covers ((someLines * language)∗ * lines) tokens ↔
      ∃ trees, Grammar.Follow Item tokens trees := by
  rw [covers_mul]
  constructor
  · rintro ⟨others, trail, rfl, more, trailing⟩
    rw [covers_lines] at trailing
    refine covers_star_induction (motive := fun others => ∃ trees,
      Grammar.Follow Item (others ++ trail) trees) ⟨_, .none trailing⟩ ?_ more
    intro before behind next ih
    obtain ⟨lines, used, rfl, some, item⟩ := covers_mul.mp next
    obtain ⟨nonempty, newlines⟩ := covers_someLines.mp some
    obtain ⟨tree, item⟩ := (same used).mp item
    obtain ⟨trees, follow⟩ := ih
    exact ⟨_, by simpa using Grammar.Follow.more nonempty newlines item follow⟩
  · rintro ⟨trees, follow⟩
    induction follow with
    | none newlines => exact ⟨[], _, rfl, covers_star_nil, covers_lines.mpr newlines⟩
    | @more lines used _ _ _ nonempty newlines item follow ih =>
        obtain ⟨others, trail, rfl, more, trailing⟩ := ih
        refine ⟨lines ++ used ++ others, trail, by simp, covers_star_append ?_ more, trailing⟩
        exact covers_mul.mpr ⟨lines, used, rfl, covers_someLines.mpr ⟨nonempty, newlines⟩,
          (same used).mpr ⟨_, item⟩⟩

theorem same_body {language : Language Kind} (same : Same language Item) :
    Same (body language) (Grammar.Body Item) := by
  intro tokens
  simp only [body, covers_mul, covers_optional, same _, covers_lines]
  constructor
  · rintro ⟨lead, _, rfl, leading, _, trail, rfl, rfl | ⟨used, others, rfl, ⟨tree, item⟩, more⟩,
      trailing⟩
    · exact ⟨_, .blank (List.forall_mem_append.mpr ⟨leading, trailing⟩)⟩
    · obtain ⟨trees, follow⟩ := (covers_follow same).mp
        (covers_mul.mpr ⟨others, trail, rfl, more, covers_lines.mpr trailing⟩)
      exact ⟨_, by simpa using Grammar.Body.items leading item follow⟩
  · rintro ⟨_, body⟩
    cases body with
    | blank newlines => exact ⟨[], _, rfl, .nil, [], _, rfl, .inl rfl, newlines⟩
    | @items lead used _ _ _ leading item follow =>
        obtain ⟨others, trail, rfl, more, trailing⟩ :=
          covers_mul.mp ((covers_follow same).mpr ⟨_, follow⟩)
        exact ⟨lead, _, rfl, leading, used ++ others, trail, by simp, .inr ⟨used, others, rfl,
          ⟨_, item⟩, more⟩, covers_lines.mp trailing⟩

theorem same_labelled {language : Language Kind} (same : Same language Item) :
    Same (labelled language) (Grammar.Labelled Item) := by
  intro tokens
  simp only [labelled, covers_mul, ident, covers_terminal, covers_mark, covers_labels,
    same_body same _]
  constructor
  · rintro ⟨_, _, rfl, ⟨title, rfl, name, named⟩, labels, _, rfl, ⟨labelTrees, labelled⟩, _, _, rfl,
      ⟨opening, rfl, opens⟩, inner, _, rfl, ⟨trees, body⟩, closing, rfl, closes⟩
    exact ⟨_, .mk named labelled opens body closes⟩
  · rintro ⟨_, @⟨title, opening, closing, name, labels, inner, _, _, named, labelled, opens, body,
      closes⟩⟩
    exact ⟨[title], _, rfl, ⟨title, rfl, name, named⟩, labels, _, rfl, ⟨_, labelled⟩, [opening], _,
      rfl, ⟨opening, rfl, opens⟩, inner, [closing], rfl, ⟨_, body⟩, closing, rfl, closes⟩

theorem same_block (depth : Nat) : Same (block depth) (Grammar.Block depth) := by
  induction depth with
  | zero => exact fun tokens => ⟨fun absurd => absurd.elim, fun ⟨_, absurd⟩ => absurd.elim⟩
  | succ depth ih => exact same_labelled (same_stmt (same_expr depth) ih)

/-- The documents of the grammar as it is written down are the documents that have trees. -/
theorem same_document (depth : Nat) : Same (document depth) (Grammar.Document depth) :=
  same_body (same_stmt (same_expr depth) (same_block depth))

end Phrases

end ConfigLang.Ebnf
