import ConfigLang.Evaluation
import ConfigLang.OperatorTable
/-!
Evaluation with operators, function calls and attributes of maps. Indexes and splats stay
unsupported.
-/

set_option autoImplicit false

namespace ConfigLang

namespace Operators

variable {σ κ φ : Type}

/-- An operand of an operator must be a scalar. -/
def scalar (op : String) (value : Value) : Except Failure Scalar :=
  match value.toScalar with
  | .ok scalar => .ok scalar
  | .error collection => .error (.invalidOperand op collection.kind)

/-- A sign applied to a scalar. -/
def unary (op : UnaryOperator) (operand : Scalar) : Except Failure Scalar :=
  match op, operand with
  | .neg, .int value =>
    match Integer.neg? value with
    | some negated => .ok (.int negated)
    | none => .error (.arithmetic op.symbol "integer overflow")
  | .neg, .float value => .ok (.float value.neg)
  | .not, .bool value => .ok (.bool !value)
  | op, operand => .error (.invalidOperand op.symbol operand.kind)

/-- A binary operator by a table. Without a handler the kinds do not match. -/
def binary (table : OperatorTable) (op : BinaryOperator) (left right : Scalar) :
    Except Failure Scalar :=
  match table.evaluate? op left right with
  | some result => result
  | none => .error (.typeMismatch op.symbol left.kind right.kind)

/-- Evaluates operands one after the other. -/
def all : List (Operand σ κ) → Run σ (Query κ) (List Value)
  | [] => pure []
  | operand :: rest => do
    let value ← operand.evaluate
    let others ← all rest
    return value :: others

/-- The attribute of a map. A key that is missing is an error of the context. -/
def attr (host : Host σ κ φ) (on : κ) (name : String) : Value → Run σ (Query κ) Value
  | .map entries =>
    match entries.find? name with
    | some scalar => pure (.scalar scalar)
    | none => host.refuse on ("map has no key " ++ Text.quote name)
  | value => Run.fail (.invalidOperand "." value.kind)

/-- Arguments come before the function is looked up, and both operands of an operator are
evaluated whatever the left one is. -/
def extension (host : Host σ κ φ) (table : OperatorTable) : Extension σ κ :=
  { Extension.base with
    call := fun on name arguments => do
      let values ← all arguments
      let function ← host.function on name
      host.apply function values
    getAttr := fun on operand name => do
      let value ← operand.evaluate
      attr host on name value
    unary := fun _ op operand => do
      let value ← operand.evaluate
      let scalar ← Run.ofExcept (scalar op.symbol value)
      let result ← Run.ofExcept (unary op scalar)
      return .scalar result
    binary := fun _ op left right => do
      let leftValue ← left.evaluate
      let leftScalar ← Run.ofExcept (scalar op.symbol leftValue)
      let rightValue ← right.evaluate
      let rightScalar ← Run.ofExcept (scalar op.symbol rightValue)
      let result ← Run.ofExcept (binary table op leftScalar rightScalar)
      return .scalar result }

end Operators

namespace Evaluator

variable {σ κ φ : Type}

/-- Evaluation with the operators of a table. -/
def operators (host : Host σ κ φ) (table : OperatorTable) : Evaluator σ κ :=
  Evaluation.evaluate host (Operators.extension host table)

/-- Evaluation where the kinds of unsupported expressions are their values. -/
def kinds (host : Host σ κ φ) : Evaluator σ κ :=
  Evaluation.evaluate host .kinds

end Evaluator

end ConfigLang
