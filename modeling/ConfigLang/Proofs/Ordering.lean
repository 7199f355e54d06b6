import Mathlib.Data.Int.Order.Basic
import ConfigLang.Document.Equality
import ConfigLang.Proofs.ByteOrder
import ConfigLang.Proofs.Kinds
/-!
Comparisons of integers and of strings. Order and equality are two handlers; they agree, so that
the six comparisons go by one total order.
-/

set_option autoImplicit false

namespace ConfigLang

variable {σ κ φ α β : Type}

namespace BinaryOperator

/-- The operators that ask for order or equality. -/
def IsComparison (op : BinaryOperator) : Prop :=
  op.family = .order ∨ op.family = .equality

/-- What a comparison says of two members of a linear order. -/
def relates [LinearOrder β] (op : BinaryOperator) (left right : β) : Bool :=
  match op with
  | .less => left < right
  | .greater => right < left
  | .lessEq => left ≤ right
  | .greaterEq => right ≤ left
  | .eq => left = right
  | .notEq => left ≠ right
  | _ => false

end BinaryOperator

/-- What operators tell of two operands goes by one total order. -/
structure IsTotalOrder (tells : BinaryOperator → α → α → Bool) : Prop where
  single (left right : α) :
    [tells .less left right, tells .eq left right, tells .greater left right].count true = 1
  lessEq (left right : α) : tells .lessEq left right = !tells .greater left right
  greaterEq (left right : α) : tells .greaterEq left right = !tells .less left right
  notEq (left right : α) : tells .notEq left right = !tells .eq left right
  trans {first second third : α} (before : tells .less first second = true)
    (behind : tells .less second third = true) : tells .less first third = true

/-- Operands that are compared by their values in a linear order. -/
theorem IsTotalOrder.of_relates [LinearOrder β] (value : α → β) :
    IsTotalOrder fun op left right => op.relates (value left) (value right) where
  single left right := by
    simp only [BinaryOperator.relates]
    rcases lt_trichotomy (value left) (value right) with below | same | above
    · simp [below, below.ne, below.asymm]
    · simp [same]
    · simp [above, above.ne', above.asymm]
  lessEq left right := by simp [BinaryOperator.relates, ← not_lt]
  greaterEq left right := by simp [BinaryOperator.relates, ← not_lt]
  notEq left right := by simp [BinaryOperator.relates]
  trans before behind := by
    simp only [BinaryOperator.relates, decide_eq_true_eq] at *
    exact before.trans behind

/-! ### The handlers -/

namespace Handler

variable [LinearOrder β] {op : BinaryOperator}

theorem ordered_eq_relates (is : op.family = .order) (left right : β) :
    ordered op (left < right) (right < left) (left = right) = op.relates left right := by
  cases op with
  | less | greater => rfl
  | lessEq => simp [ordered, BinaryOperator.relates, le_iff_lt_or_eq]
  | greaterEq => simp [ordered, BinaryOperator.relates, le_iff_lt_or_eq, eq_comm]
  | _ => cases is

theorem answer_eq_relates (is : op.family = .equality) (left right : β) :
    equality.answer op (left = right) = .ok (.bool (op.relates left right)) := by
  cases op with
  | eq => rfl
  | notEq => simp [equality.answer, BinaryOperator.relates]
  | _ => cases is

end Handler

namespace Operators

variable {op : BinaryOperator}

theorem binary_integers (is : op.IsComparison) (left right : Int64) :
    binary .standard op (.int left) (.int right) =
      .ok (.bool (op.relates left.toInt right.toInt)) := by
  have same : ScalarKind.of (.int right) = .of (.int left) := rfl
  rw [binary_of_same same]
  rcases is with order | equality
  · rw [order, ← Handler.ordered_eq_relates order]
    simp only [← Int64.lt_iff_toInt_lt, Int64.toInt_inj]
    rfl
  · rw [equality, ← Handler.answer_eq_relates equality]
    simp only [Int64.toInt_inj]
    rfl

theorem binary_strings (is : op.IsComparison) (left right : String) :
    binary .standard op (.string left) (.string right) = .ok (.bool (op.relates left right)) := by
  have same : ScalarKind.of (.string right) = .of (.string left) := rfl
  rw [binary_of_same same]
  rcases is with order | equality
  · rw [order, ← Handler.ordered_eq_relates order]
    rfl
  · rw [equality, ← Handler.answer_eq_relates equality]
    rfl

end Operators

/-! ### Evaluation -/

namespace Evaluator

/-- Every comparison of two literals of a sort has a truth value. The truth values go by a total
order, in which literals are equal where they are the same literal. -/
structure Compares (host : Host σ κ φ) (on : κ) (state : σ) (literal : α → Scalar)
    (precedes : α → α → Prop) (tells : BinaryOperator → α → α → Bool) : Prop where
  decided {op : BinaryOperator} (is : op.IsComparison) (left right : α) :
    (operators host .standard on
      (.binary op (.literal (literal left)) (.literal (literal right))) state).result =
        .ok (.scalar (.bool (tells op left right)))
  total : IsTotalOrder tells
  equal (left right : α) :
    tells .eq left right = Expression.same (.literal (literal left)) (.literal (literal right))
  before (left right : α) : tells .less left right = true ↔ precedes left right

theorem compares_of_relates [LinearOrder β] (host : Host σ κ φ) (on : κ) (state : σ)
    {literal : α → Scalar} {precedes : α → α → Prop} (value : α → β)
    (result : ∀ {op : BinaryOperator}, op.IsComparison → ∀ left right,
      Operators.binary .standard op (literal left) (literal right) =
        .ok (.bool (op.relates (value left) (value right))))
    (distinct : ∀ left right, literal left = literal right ↔ value left = value right)
    (order : ∀ left right, value left < value right ↔ precedes left right) :
    Compares host on state literal precedes
      fun op left right => op.relates (value left) (value right) where
  decided is left right := by
    rw [operators, Evaluation.evaluate, Evaluation.evaluate, Evaluation.evaluate,
      (Operators.binary_of_scalars host .standard on _ rfl rfl).1, result is]
    rfl
  total := .of_relates value
  equal left right := by
    have same : (literal left).same (literal right) = decide (value left = value right) := by
      rw [Bool.eq_iff_iff, Scalar.same_iff, distinct, decide_eq_true_iff]
    rw [Expression.same, same]
    rfl
  before left right := by
    rw [← order]
    exact decide_eq_true_iff

/-- The standard operators compare integers by their order as integers, and strings by the
lexicographic order of the numbers of their characters, which is that of their bytes as well.
Exactly one of less, equal and greater holds of two integers or two strings, the other three
comparisons are negations of these, and equality is that of literals. -/
theorem operators_compare (host : Host σ κ φ) (on : κ) (state : σ) :
    (∃ tells, Compares host on state Scalar.int (fun left right => left.toInt < right.toInt)
      tells) ∧
    (∃ tells, Compares host on state Scalar.string Text.Alphabetical tells) ∧
    ∀ left right, Text.Alphabetical left right ↔
      List.Lex (· < ·) (Text.bytes left) (Text.bytes right) := by
  have sameInteger (left right : Int64) :
      Scalar.int left = .int right ↔ left.toInt = right.toInt := by
    rw [Scalar.int.injEq, Int64.toInt_inj]
  have sameString (left right : String) :
      Scalar.string left = .string right ↔ id left = id right := by
    rw [Scalar.string.injEq, id, id]
  have integers := compares_of_relates host on state Int64.toInt Operators.binary_integers
    sameInteger fun _ _ => .rfl
  have strings := compares_of_relates host on state id Operators.binary_strings sameString
    fun _ _ => Text.lt_iff_alphabetical
  exact ⟨⟨_, integers⟩, ⟨_, strings⟩, fun left right => Text.alphabetical_iff_lex_bytes⟩

end Evaluator

end ConfigLang
