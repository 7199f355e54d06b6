import ConfigLang.Token
/-!
Scalars: the values of literals.
-/

set_option autoImplicit false

namespace ConfigLang

/-- A value without parts. -/
inductive Scalar where
  | null
  | bool (value : Bool)
  | int (value : Int64)
  | float (value : Binary64)
  | string (value : String)
deriving Repr

namespace Scalar

/-- Whether two scalars are the same. Floats count by their bits, so that what is not a number is
the same as itself, and the zeros of both signs differ. -/
def same : Scalar → Scalar → Bool
  | null, null => true
  | bool value, bool other => value = other
  | int value, int other => value = other
  | float value, float other => value.bits = other.bits
  | string value, string other => value = other
  | _, _ => false

theorem same_iff (left right : Scalar) : same left right = true ↔ left = right := by
  cases left <;> cases right <;>
    simp only [same, decide_eq_true_eq, reduceCtorEq, Bool.false_eq_true, bool.injEq, int.injEq,
      float.injEq, string.injEq]
  case float value other =>
    cases value
    cases other
    rw [Binary64.mk.injEq]

instance : DecidableEq Scalar :=
  fun left right => decidable_of_iff _ (same_iff left right)

/-- The name of the kind, as messages give it. -/
def kind : Scalar → String
  | null => "null"
  | bool _ => "bool"
  | int _ => "int"
  | float _ => "float"
  | string _ => "string"

/-- The written form: strings in quotes, all else bare. -/
def text : Scalar → String
  | null => "null"
  | bool value => if value then "true" else "false"
  | int value => Integer.text value
  | float value => value.text
  | string value => Text.quote value

end Scalar

end ConfigLang
