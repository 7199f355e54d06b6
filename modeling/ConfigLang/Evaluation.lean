import ConfigLang.Document
import ConfigLang.Host
/-!
Evaluating expressions. Literals, names, arrays and objects always mean the same; what the other
expressions mean is up to an extension.
-/

set_option autoImplicit false

namespace ConfigLang

variable {σ κ φ : Type}

/-- An evaluation of expressions in the contexts of a host. -/
abbrev Evaluator (σ κ : Type) : Type :=
  κ → Expression → Run σ (Query κ) Value

/-- A part of an expression, and its evaluation in the same context. -/
structure Operand (σ κ : Type) where
  expression : Expression
  evaluate : Run σ (Query κ) Value

/-- The meaning of calls, projections and operations. -/
structure Extension (σ κ : Type) where
  call : κ → String → List (Operand σ κ) → Run σ (Query κ) Value
  getAttr : κ → Operand σ κ → String → Run σ (Query κ) Value
  getIndex : κ → Operand σ κ → Scalar → Run σ (Query κ) Value
  attrSplat : κ → Operand σ κ → Run σ (Query κ) Value
  indexSplat : κ → Operand σ κ → Run σ (Query κ) Value
  unary : κ → UnaryOperator → Operand σ κ → Run σ (Query κ) Value
  binary : κ → BinaryOperator → Operand σ κ → Operand σ κ → Run σ (Query κ) Value

namespace Extension

/-- The same run for every expression of a kind. -/
def uniform (meaning : String → Run σ (Query κ) Value) : Extension σ κ where
  call _ _ _ := meaning "FunctionCall"
  getAttr _ _ _ := meaning "GetAttr"
  getIndex _ _ _ := meaning "GetIndex"
  attrSplat _ _ := meaning "AttrSplat"
  indexSplat _ _ := meaning "IndexSplat"
  unary _ _ _ := meaning "UnaryOp"
  binary _ _ _ _ := meaning "BinaryOp"

/-- Nothing beyond the base is supported. -/
def base : Extension σ κ :=
  uniform fun kind => Run.fail (.unsupported kind)

/-- Every other expression stands for the name of its kind, and nothing in it is evaluated. -/
def kinds : Extension σ κ :=
  uniform fun kind => pure (.scalar (.string kind))

end Extension

namespace Evaluation

/-- A member of a collection must be a scalar. -/
def member (value : Value) : Run σ (Query κ) Scalar :=
  match value.toScalar with
  | .ok scalar => pure scalar
  | .error collection => Run.fail (.nestedCollection collection.kind)

mutual

/-- Evaluates an expression in a context. -/
def evaluate (host : Host σ κ φ) (extension : Extension σ κ) (on : κ) :
    Expression → Run σ (Query κ) Value
  | .literal value => pure (.scalar value)
  | .identifier name => host.attr on name
  | .array items => do return .list (← members host extension on items)
  | .object fields => do return .map (← entries host extension on fields)
  | .call function arguments =>
    extension.call on function (operands host extension on arguments)
  | .getAttr value name =>
    extension.getAttr on ⟨value, evaluate host extension on value⟩ name
  | .getIndex value index =>
    extension.getIndex on ⟨value, evaluate host extension on value⟩ index
  | .attrSplat value => extension.attrSplat on ⟨value, evaluate host extension on value⟩
  | .indexSplat value => extension.indexSplat on ⟨value, evaluate host extension on value⟩
  | .unary op operand => extension.unary on op ⟨operand, evaluate host extension on operand⟩
  | .binary op left right =>
    extension.binary on op ⟨left, evaluate host extension on left⟩
      ⟨right, evaluate host extension on right⟩

/-- The members of an array, one after the other. -/
def members (host : Host σ κ φ) (extension : Extension σ κ) (on : κ) :
    List Expression → Run σ (Query κ) (List Scalar)
  | [] => pure []
  | item :: rest => do
    let value ← evaluate host extension on item
    let scalar ← member value
    let others ← members host extension on rest
    return scalar :: others

/-- The entries of an object, one after the other. -/
def entries (host : Host σ κ φ) (extension : Extension σ κ) (on : κ) :
    List (String × Expression) → Run σ (Query κ) (Fields Scalar)
  | [] => pure []
  | (key, item) :: rest => do
    let value ← evaluate host extension on item
    let scalar ← member value
    let others ← entries host extension on rest
    return (key, scalar) :: others

/-- The arguments of a call, none of them evaluated yet. -/
def operands (host : Host σ κ φ) (extension : Extension σ κ) (on : κ) :
    List Expression → List (Operand σ κ)
  | [] => []
  | item :: rest =>
    ⟨item, evaluate host extension on item⟩ :: operands host extension on rest

end

/-- Evaluates each of several expressions. -/
def evaluateAll (evaluator : Evaluator σ κ) (on : κ) :
    List Expression → Run σ (Query κ) (List Value)
  | [] => pure []
  | item :: rest => do
    let value ← evaluator on item
    let others ← evaluateAll evaluator on rest
    return value :: others

end Evaluation

namespace Evaluator

/-- Literals, names, arrays and objects only. -/
def base (host : Host σ κ φ) : Evaluator σ κ :=
  Evaluation.evaluate host .base

end Evaluator

end ConfigLang
