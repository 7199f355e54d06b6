import ConfigLang.Document
/-!
Equality of documents is decided node by node. It is equality of the trees: fields count in their
order, and literals as scalars do, with floats by their bits.
-/

set_option autoImplicit false

namespace ConfigLang

namespace Expression

mutual

def same : Expression → Expression → Bool
  | literal value, literal other => value.same other
  | array items, array others => sameAll items others
  | object fields, object others => sameFields fields others
  | call function arguments, call other others => function = other && sameAll arguments others
  | identifier name, identifier other => name = other
  | getAttr on name, getAttr other name' => same on other && name = name'
  | getIndex on index, getIndex other index' => same on other && index.same index'
  | attrSplat on, attrSplat other => same on other
  | indexSplat on, indexSplat other => same on other
  | unary op operand, unary op' other => op = op' && same operand other
  | binary op left right, binary op' left' right' =>
    op = op' && same left left' && same right right'
  | _, _ => false

def sameAll : List Expression → List Expression → Bool
  | [], [] => true
  | item :: rest, other :: others => same item other && sameAll rest others
  | _, _ => false

def sameFields : List (String × Expression) → List (String × Expression) → Bool
  | [], [] => true
  | (key, value) :: rest, (key', value') :: others =>
    key = key' && same value value' && sameFields rest others
  | _, _ => false

end

mutual

theorem same_iff (left right : Expression) : same left right = true ↔ left = right := by
  cases left <;> cases right <;>
    simp only [same, Bool.and_eq_true, decide_eq_true_eq, reduceCtorEq, Bool.false_eq_true,
      literal.injEq, array.injEq, object.injEq, call.injEq, identifier.injEq, getAttr.injEq,
      getIndex.injEq, attrSplat.injEq, indexSplat.injEq, unary.injEq, binary.injEq]
  case literal value other => exact value.same_iff other
  case array items others => exact sameAll_iff items others
  case object fields others => exact sameFields_iff fields others
  case call _ arguments _ others => rw [sameAll_iff arguments others]
  case getAttr on _ other _ => rw [same_iff on other]
  case getIndex on index other index' => rw [same_iff on other, index.same_iff index']
  case attrSplat on other => exact same_iff on other
  case indexSplat on other => exact same_iff on other
  case unary _ operand _ other => rw [same_iff operand other]
  case binary _ left right _ left' right' =>
    rw [same_iff left left', same_iff right right', and_assoc]

theorem sameAll_iff (left right : List Expression) : sameAll left right = true ↔ left = right := by
  match left, right with
  | [], [] => simp [sameAll]
  | [], _ :: _ => simp [sameAll]
  | _ :: _, [] => simp [sameAll]
  | item :: rest, other :: others =>
      simp only [sameAll, Bool.and_eq_true, List.cons.injEq]
      rw [same_iff item other, sameAll_iff rest others]

theorem sameFields_iff (left right : List (String × Expression)) :
    sameFields left right = true ↔ left = right := by
  match left, right with
  | [], [] => simp [sameFields]
  | [], _ :: _ => simp [sameFields]
  | _ :: _, [] => simp [sameFields]
  | (key, value) :: rest, (key', value') :: others =>
      simp only [sameFields, Bool.and_eq_true, decide_eq_true_eq, List.cons.injEq, Prod.mk.injEq]
      rw [same_iff value value', sameFields_iff rest others]

end

instance : DecidableEq Expression :=
  fun left right => decidable_of_iff _ (same_iff left right)

end Expression

namespace Statement

mutual

def same : Statement → Statement → Bool
  | assign key value, assign key' value' => key = key' && value = value'
  | block name labels body, block name' labels' body' =>
    name = name' && labels = labels' && sameAll body body'
  | _, _ => false

def sameAll : List Statement → List Statement → Bool
  | [], [] => true
  | statement :: rest, other :: others => same statement other && sameAll rest others
  | _, _ => false

end

mutual

theorem same_iff (left right : Statement) : same left right = true ↔ left = right := by
  cases left <;> cases right <;>
    simp only [same, Bool.and_eq_true, decide_eq_true_eq, reduceCtorEq, Bool.false_eq_true,
      assign.injEq, block.injEq]
  case block _ _ body _ _ body' => rw [sameAll_iff body body', and_assoc]

theorem sameAll_iff (left right : List Statement) : sameAll left right = true ↔ left = right := by
  match left, right with
  | [], [] => simp [sameAll]
  | [], _ :: _ => simp [sameAll]
  | _ :: _, [] => simp [sameAll]
  | statement :: rest, other :: others =>
      simp only [sameAll, Bool.and_eq_true, List.cons.injEq]
      rw [same_iff statement other, sameAll_iff rest others]

end

instance : DecidableEq Statement :=
  fun left right => decidable_of_iff _ (same_iff left right)

end Statement

deriving instance DecidableEq for Document

end ConfigLang
