import ConfigLang.Document
import ConfigLang.Failure
import ConfigLang.Value
/-!
The meaning of binary operators, by operator and kinds of the operands. There is no conversion
between kinds, not even from integers to floats.
-/

set_option autoImplicit false

namespace ConfigLang

/-- What an operator does with two scalars. -/
abbrev Handler : Type :=
  BinaryOperator → Scalar → Scalar → Except Failure Scalar

namespace Handler

/-- The failure of an operator on kinds that it is not defined for. -/
def mismatch (op : BinaryOperator) (left right : Scalar) : Except Failure Scalar :=
  .error (.typeMismatch op.symbol left.kind right.kind)

/-- The exact result of an operator on integers, if it is one and in range. -/
def integer? (op : BinaryOperator) (left right : Int64) : Option (Option Int64) :=
  match op with
  | .add => some (Integer.add? left right)
  | .sub => some (Integer.sub? left right)
  | .mul => some (Integer.mul? left right)
  | .div => some (Integer.div? left right)
  | .mod => some (Integer.mod? left right)
  | _ => none

/-- Why an operator on integers has no result. -/
def integerFailure (op : BinaryOperator) (right : Int64) : Failure :=
  let divides := op = .div ∨ op = .mod
  .arithmetic op.symbol
    (if right = 0 ∧ divides then "division by zero" else "integer overflow")

/-- Integer arithmetic, exact or a failure. -/
def integers : Handler
  | op, .int left, .int right =>
    match integer? op left right with
    | some (some value) => .ok (.int value)
    | some none => .error (integerFailure op right)
    | none => mismatch op (.int left) (.int right)
  | op, left, right => mismatch op left right

def float? (op : BinaryOperator) (left right : Binary64) : Option Binary64 :=
  match op with
  | .add => some (left.add right)
  | .sub => some (left.sub right)
  | .mul => some (left.mul right)
  | .div => some (left.div right)
  | .mod => some (left.mod right)
  | _ => none

/-- Floating-point arithmetic. -/
def floats : Handler
  | op, .float left, .float right =>
    match float? op left right with
    | some value => .ok (.float value)
    | none => mismatch op (.float left) (.float right)
  | op, left, right => mismatch op left right

/-- An order of two operands read off two tests. Where neither holds and they are not equal, no
comparison holds. -/
def ordered (op : BinaryOperator) (less greater equal : Bool) : Bool :=
  match op with
  | .less => less
  | .greater => greater
  | .lessEq => less || equal
  | .greaterEq => greater || equal
  | _ => false

/-- Comparison of two integers, floats or strings. Strings compare character by character. -/
def comparison : Handler
  | op, .int left, .int right =>
    .ok (.bool (ordered op (left < right) (right < left) (left = right)))
  | op, .float left, .float right =>
    .ok (.bool (ordered op (left.less right) (right.less left) (left.same right)))
  | op, .string left, .string right =>
    .ok (.bool (ordered op (left < right) (right < left) (left = right)))
  | op, left, right => mismatch op left right

/-- Equality of two scalars of one kind, and its negation. -/
def equality : Handler
  | op, .null, .null => answer op true
  | op, .bool left, .bool right => answer op (left = right)
  | op, .int left, .int right => answer op (left = right)
  | op, .float left, .float right => answer op (left.same right)
  | op, .string left, .string right => answer op (left = right)
  | op, left, right => mismatch op left right
where
  answer (op : BinaryOperator) (equal : Bool) : Except Failure Scalar :=
    .ok (.bool (if op = .eq then equal else !equal))

/-- Conjunction and disjunction. -/
def logic : Handler
  | .and, .bool left, .bool right => .ok (.bool (left && right))
  | .or, .bool left, .bool right => .ok (.bool (left || right))
  | op, left, right => mismatch op left right

end Handler

/-- An operator with the kinds of its operands. -/
structure Signature where
  op : BinaryOperator
  left : String
  right : String
deriving DecidableEq, Repr

/-- Handlers by signature, the latest first. -/
structure OperatorTable where
  handlers : List (Signature × Handler)

namespace OperatorTable

def empty : OperatorTable := ⟨[]⟩

/-- From now on the handler is the one for the signature. -/
def insert (table : OperatorTable) (signature : Signature) (handler : Handler) : OperatorTable :=
  ⟨(signature, handler) :: table.handlers⟩

/-- The handler that was inserted last for a signature. -/
def find? (table : OperatorTable) (signature : Signature) : Option Handler :=
  table.handlers.lookup signature

/-- The result of an operator on two scalars, if there is a handler for their kinds. -/
def evaluate? (table : OperatorTable) (op : BinaryOperator) (left right : Scalar) :
    Option (Except Failure Scalar) :=
  (table.find? ⟨op, left.kind, right.kind⟩).map fun handler => handler op left right

/-- The handler for several operators, on operands of one kind each. -/
def insertAll (table : OperatorTable) (ops : List BinaryOperator) (kinds : List String)
    (handler : Handler) : OperatorTable :=
  ops.foldl (fun table op =>
    kinds.foldl (fun table kind => table.insert ⟨op, kind, kind⟩ handler) table)
    table

/-- The operators on operands of one kind. -/
def standard : OperatorTable :=
  empty
    |>.insertAll [.add, .sub, .mul, .div, .mod] ["int"] Handler.integers
    |>.insertAll [.add, .sub, .mul, .div, .mod] ["float"] Handler.floats
    |>.insertAll [.less, .greater, .lessEq, .greaterEq] ["int", "float", "string"]
      Handler.comparison
    |>.insertAll [.eq, .notEq] ["null", "bool", "int", "float", "string"] Handler.equality
    |>.insertAll [.and, .or] ["bool"] Handler.logic

@[simp] theorem find?_empty (signature : Signature) : empty.find? signature = none := rfl

theorem find?_insert_self (table : OperatorTable) (signature : Signature) (handler : Handler) :
    (table.insert signature handler).find? signature = some handler := by
  simp only [insert, find?, List.lookup_cons_self]

theorem find?_insert_of_ne (table : OperatorTable) (signature other : Signature)
    (handler : Handler) (different : other ≠ signature) :
    (table.insert signature handler).find? other = table.find? other := by
  have apart : (other == signature) = false := by simpa using different
  simp only [insert, find?, List.lookup_cons, apart]

end OperatorTable

end ConfigLang
