import ConfigLang.Proofs.Kinds
/-!
Integer arithmetic. An operation on integers gives the exact result where there is a 64-bit integer
for it and fails where there is none, and the failure names its cause.
-/

set_option autoImplicit false

namespace ConfigLang

variable {σ κ φ : Type}

namespace Integer

section Division

variable (left : Int64) {right : Int64}

theorem toInt_ne_zero (divisor : right ≠ 0) : right.toInt ≠ 0 :=
  fun zero => divisor (Int64.toInt_inj.mp zero)

/-- A quotient is out of range only where the least integer is divided by minus one. -/
theorem ofInt?_tdiv_eq_none_iff (divisor : right ≠ 0) :
    ofInt? (left.toInt.tdiv right.toInt) = none ↔ left = Int64.minValue ∧ right = -1 := by
  have low := left.le_toInt
  have high := left.toInt_lt
  have nonzero := toInt_ne_zero divisor
  rw [ofInt?_eq_none_iff]
  constructor
  · intro outside
    by_cases single : right.toInt.natAbs = 1
    · rcases (show right.toInt = 1 ∨ right.toInt = -1 by omega) with one | minus
      · rw [one, Int.tdiv_one] at outside
        exact absurd ⟨low, high⟩ outside
      · rw [minus, Int.tdiv_neg, Int.tdiv_one] at outside
        have least : left.toInt = -0x8000000000000000 := by omega
        exact ⟨Int64.toInt_inj.mp least, Int64.toInt_inj.mp minus⟩
    · -- a divisor beyond one halves the magnitude at least
      have halved : (left.toInt.tdiv right.toInt).natAbs ≤ left.toInt.natAbs / 2 := by
        rw [Int.natAbs_tdiv]
        exact Nat.div_le_div_left (by omega) (by decide)
      omega
  · rintro ⟨rfl, rfl⟩
    decide

theorem natAbs_tmod_lt (divisor : right ≠ 0) :
    (left.toInt.tmod right.toInt).natAbs < right.toInt.natAbs := by
  have nonzero := toInt_ne_zero divisor
  rw [Int.natAbs_tmod]
  exact Nat.mod_lt _ (by omega)

theorem sign_tmod (left right : Int) :
    left.tmod right = 0 ∨ (left.tmod right).sign = left.sign := by
  rcases Int.lt_trichotomy 0 left with positive | rfl | negative
  · have above := Int.tmod_nonneg right (Int.le_of_lt positive)
    rw [Int.sign_eq_one_of_pos positive]
    rcases Int.lt_or_eq_of_le above with remains | none
    · exact .inr (Int.sign_eq_one_of_pos remains)
    · exact .inl none.symm
  · exact .inl (Int.zero_tmod right)
  · have below := Int.tmod_nonneg right (show 0 ≤ -left by omega)
    rw [Int.neg_tmod] at below
    rw [Int.sign_eq_neg_one_of_neg negative]
    rcases Int.lt_or_eq_of_le below with remains | none
    · exact .inr (Int.sign_eq_neg_one_of_neg (by omega))
    · exact .inl (by omega)

theorem exists_ofInt?_tmod (divisor : right ≠ 0) :
    ∃ remainder, ofInt? (left.toInt.tmod right.toInt) = some remainder := by
  have low := right.le_toInt
  have high := right.toInt_lt
  have small := natAbs_tmod_lt left divisor
  refine Option.ne_none_iff_exists'.mp fun none => ?_
  rw [ofInt?_eq_none_iff] at none
  omega

/-- Quotient and remainder are there together. -/
theorem div?_mod? (divisor : right ≠ 0) (inside : ¬(left = Int64.minValue ∧ right = -1)) :
    ∃ quotient remainder, div? left right = some quotient ∧ mod? left right = some remainder ∧
      quotient.toInt = left.toInt.tdiv right.toInt ∧
      remainder.toInt = left.toInt.tmod right.toInt := by
  obtain ⟨remainder, rest⟩ := exists_ofInt?_tmod left divisor
  have fits := mt (ofInt?_tdiv_eq_none_iff left divisor).mp inside
  obtain ⟨quotient, whole⟩ := Option.ne_none_iff_exists'.mp fits
  have found : div? left right = some quotient := by rw [div?, if_neg divisor, whole]
  refine ⟨quotient, remainder, found, ?_, ofInt?_eq_some_iff.mp whole, ofInt?_eq_some_iff.mp rest⟩
  rw [mod?, found, Option.bind_some, rest]

end Division

/-- The result is the integer of this value, or that there is none. -/
inductive IsExact (op : String) (value : Int) : Except Failure Value → Prop
  | fits {word : Int64} (same : word.toInt = value) : IsExact op value (.ok (.scalar (.int word)))
  | overflows (unfit : ∀ word : Int64, word.toInt ≠ value) :
      IsExact op value (.error (.arithmetic op "integer overflow"))

/-- Quotient and remainder of a division toward zero. -/
structure IsDivision (left right quotient remainder : Int64) : Prop where
  whole : left.toInt = quotient.toInt * right.toInt + remainder.toInt
  small : remainder.toInt.natAbs < right.toInt.natAbs
  sign : remainder = 0 ∨ remainder.toInt.sign = left.toInt.sign

theorem isDivision {left right quotient remainder : Int64} (divisor : right ≠ 0)
    (whole : quotient.toInt = left.toInt.tdiv right.toInt)
    (rest : remainder.toInt = left.toInt.tmod right.toInt) :
    IsDivision left right quotient remainder where
  whole := by rw [whole, rest, Int.mul_comm, Int.mul_tdiv_add_tmod]
  small := by
    rw [rest]
    exact natAbs_tmod_lt left divisor
  sign := by
    have signs := sign_tmod left.toInt right.toInt
    rw [← rest] at signs
    exact signs.imp_left fun zero => Int64.toInt_inj.mp zero

end Integer

namespace Handler

variable (op : BinaryOperator) {left right : Int64}

theorem integers_of_some {result : Int64} (given : integer? op left right = some (some result)) :
    integers op (.int left) (.int right) = .ok (.int result) := by
  simp only [integers, given]

theorem integers_of_none (given : integer? op left right = some none) :
    integers op (.int left) (.int right) = .error (integerFailure op right) := by
  simp only [integers, given]

theorem integerFailure_of_not_divides (other : ¬(op = .div ∨ op = .mod)) :
    integerFailure op right = .arithmetic op.symbol "integer overflow" := by
  have beyond : ¬(right = 0 ∧ (op = .div ∨ op = .mod)) := fun both => other both.2
  simp only [integerFailure, beyond, ↓reduceIte]

theorem integers_exact {value : Int} (other : ¬(op = .div ∨ op = .mod))
    (given : integer? op left right = some (Integer.ofInt? value)) :
    Integer.IsExact op.symbol value ((integers op (.int left) (.int right)).map Value.scalar) := by
  cases found : Integer.ofInt? value with
  | some word =>
      rw [found] at given
      rw [integers_of_some op given]
      exact .fits (Integer.ofInt?_eq_some_iff.mp found)
  | none =>
      rw [found] at given
      rw [integers_of_none op given, integerFailure_of_not_divides op other]
      refine .overflows fun word same => ?_
      rw [Integer.ofInt?_eq_some_iff.mpr same] at found
      cases found

end Handler

namespace Evaluator

variable (host : Host σ κ φ) (on : κ) (state : σ)

/-- What a standard operator gives on two integers. -/
def onIntegers (op : BinaryOperator) (left right : Int64) : Except Failure Value :=
  (operators host .standard on
    (.binary op (.literal (.int left)) (.literal (.int right))) state).result

theorem onIntegers_eq {op : BinaryOperator} (is : op.family = .arithmetic) (left right : Int64) :
    onIntegers host on state op left right =
      (Handler.integers op (.int left) (.int right)).map Value.scalar := by
  have same : ScalarKind.of (.int right) = .of (.int left) := rfl
  rw [onIntegers, operators, Evaluation.evaluate, Evaluation.evaluate, Evaluation.evaluate,
    (Operators.binary_of_scalars host .standard on op rfl rfl).1, Operators.binary_of_same same, is]
  rfl

/-- To negate an integer is to subtract it from zero, with the same failure. -/
theorem operators_neg (value : Int64) :
    (operators host .standard on (.unary .neg (.literal (.int value))) state).result =
      onIntegers host on state .sub 0 value := by
  have same : Integer.neg? value = Integer.sub? 0 value := by
    rw [Integer.neg?, Integer.sub?, show (0 : Int64).toInt = 0 from rfl, Int.zero_sub]
  rw [onIntegers_eq host on state rfl, operators, Evaluation.evaluate, Evaluation.evaluate,
    (Operators.unary_of_scalar host .standard on .neg rfl).1, Operators.unary]
  cases negated : Integer.neg? value with
  | some result => rw [Handler.integers_of_some .sub (congrArg some (same.symm.trans negated))]
  | none =>
      rw [Handler.integers_of_none .sub (congrArg some (same.symm.trans negated)),
        Handler.integerFailure_of_not_divides .sub (by decide)]
      rfl

/-- Integer arithmetic never wraps. Sums, differences and products are exact or overflow. Quotient
and remainder go together: they fail on a zero divisor, and where the least integer is divided by
minus one, and otherwise the dividend is the quotient times the divisor and a remainder that is
smaller than the divisor and has the sign of the dividend. -/
theorem operators_integers_exact (left right : Int64) :
    Integer.IsExact "+" (left.toInt + right.toInt) (onIntegers host on state .add left right) ∧
    Integer.IsExact "-" (left.toInt - right.toInt) (onIntegers host on state .sub left right) ∧
    Integer.IsExact "*" (left.toInt * right.toInt) (onIntegers host on state .mul left right) ∧
    (if right = 0 then
      onIntegers host on state .div left right = .error (.arithmetic "/" "division by zero") ∧
        onIntegers host on state .mod left right = .error (.arithmetic "%" "division by zero")
    else if left = Int64.minValue ∧ right = -1 then
      onIntegers host on state .div left right = .error (.arithmetic "/" "integer overflow") ∧
        onIntegers host on state .mod left right = .error (.arithmetic "%" "integer overflow")
    else
      ∃ quotient remainder,
        onIntegers host on state .div left right = .ok (.scalar (.int quotient)) ∧
        onIntegers host on state .mod left right = .ok (.scalar (.int remainder)) ∧
        Integer.IsDivision left right quotient remainder) ∧
    (operators host .standard on (.unary .neg (.literal (.int left))) state).result =
      onIntegers host on state .sub 0 left := by
  refine ⟨?_, ?_, ?_, ?_, operators_neg host on state left⟩
  · rw [onIntegers_eq host on state rfl]
    exact Handler.integers_exact .add (by decide) rfl
  · rw [onIntegers_eq host on state rfl]
    exact Handler.integers_exact .sub (by decide) rfl
  · rw [onIntegers_eq host on state rfl]
    exact Handler.integers_exact .mul (by decide) rfl
  · rw [onIntegers_eq host on state rfl, onIntegers_eq host on state rfl]
    split
    next zero =>
      subst zero
      exact ⟨rfl, rfl⟩
    next divisor =>
      split
      next least =>
        obtain ⟨rfl, rfl⟩ := least
        exact ⟨rfl, rfl⟩
      next inside =>
        obtain ⟨quotient, remainder, divided, left_over, whole, rest⟩ :=
          Integer.div?_mod? left divisor inside
        refine ⟨quotient, remainder, ?_, ?_, Integer.isDivision divisor whole rest⟩
        · rw [Handler.integers_of_some .div (congrArg some divided)]
          rfl
        · rw [Handler.integers_of_some .mod (congrArg some left_over)]
          rfl

end Evaluator

end ConfigLang
