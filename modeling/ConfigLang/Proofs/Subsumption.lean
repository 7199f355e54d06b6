import Mathlib.Data.List.Forall2
import ConfigLang.Evaluation
/-!
Runs that do all that others do, and the same unless the others fail in a certain way. What holds
of the extensions of two evaluations holds of the evaluations.
-/

set_option autoImplicit false

namespace ConfigLang

variable {σ κ φ ε α β : Type}

theorem Run.calls_prefix_bind (first : Run σ ε α) (next : α → Run σ ε β) (state : σ) :
    (first state).calls <+: ((first >>= next) state).calls := by
  cases came : (first state).result with
  | ok value =>
      rw [Run.bind_of_ok first next state value came]
      exact List.prefix_append _ _
  | error failure =>
      simp only [Run.bind_of_error first next state failure came, List.prefix_rfl]

/-- The second run does all that the first one does, and the same unless the first one ends in a
failure that is excepted. -/
structure Subsumes (excepted : Failure → Prop) (narrow wide : Outcome σ ε α) : Prop where
  same : (∀ failure, narrow.result = .error failure → ¬excepted failure) → wide = narrow
  calls : narrow.calls <+: wide.calls

variable {excepted : Failure → Prop}

namespace Subsumes

protected theorem refl (outcome : Outcome σ ε α) : Subsumes excepted outcome outcome :=
  ⟨fun _ => rfl, List.prefix_rfl⟩

/-- Anything may be done instead of an excepted failure. -/
theorem fail {failure : Failure} (is : excepted failure) (state : σ) (wide : Outcome σ ε α) :
    Subsumes excepted (Run.fail failure state) wide :=
  ⟨fun spared => absurd is (spared failure rfl), List.nil_prefix⟩

/-- A run that has a value is the same in both, so what follows starts from the same value and the
same state. -/
theorem bind {first other : Run σ ε α} {next more : α → Run σ ε β} {state : σ}
    (before : Subsumes excepted (first state) (other state))
    (after : ∀ value state, Subsumes excepted (next value state) (more value state)) :
    Subsumes excepted ((first >>= next) state) ((other >>= more) state) := by
  cases came : (first state).result with
  | ok value =>
      have alike : other state = first state := by
        apply before.same
        intro failure failed
        rw [came] at failed
        cases failed
      have follow := after value (first state).state
      rw [Run.bind_of_ok first next state value came,
        Run.bind_of_ok other more state value (by rw [alike, came]), alike]
      refine ⟨fun spared => ?_, (List.prefix_append_right_inj _).mpr follow.calls⟩
      rw [follow.same spared]
  | error failure =>
      rw [Run.bind_of_error first next state failure came]
      refine ⟨fun spared => ?_, before.calls.trans (Run.calls_prefix_bind other more state)⟩
      have alike : other state = first state := by
        apply before.same
        intro reason failed
        rw [came] at failed
        cases failed
        exact spared failure rfl
      rw [Run.bind_of_error other more state failure (by rw [alike, came]), alike]

end Subsumes

/-- The second operand is evaluated as the first one is, up to excepted failures. -/
def Operand.Within (excepted : Failure → Prop) (narrow wide : Operand σ κ) : Prop :=
  ∀ state, Subsumes excepted (narrow.evaluate state) (wide.evaluate state)

/-- What the second extension makes of operands subsumes what the first one makes of them. -/
structure Extension.Within (excepted : Failure → Prop) (narrow wide : Extension σ κ) : Prop where
  call (on : κ) (function : String) {arguments others : List (Operand σ κ)}
    (inner : List.Forall₂ (Operand.Within excepted) arguments others) (state : σ) :
    Subsumes excepted (narrow.call on function arguments state)
      (wide.call on function others state)
  getAttr (on : κ) (name : String) {operand other : Operand σ κ}
    (inner : operand.Within excepted other) (state : σ) :
    Subsumes excepted (narrow.getAttr on operand name state)
      (wide.getAttr on other name state)
  getIndex (on : κ) (index : Scalar) {operand other : Operand σ κ}
    (inner : operand.Within excepted other) (state : σ) :
    Subsumes excepted (narrow.getIndex on operand index state)
      (wide.getIndex on other index state)
  attrSplat (on : κ) {operand other : Operand σ κ} (inner : operand.Within excepted other)
    (state : σ) :
    Subsumes excepted (narrow.attrSplat on operand state) (wide.attrSplat on other state)
  indexSplat (on : κ) {operand other : Operand σ κ} (inner : operand.Within excepted other)
    (state : σ) :
    Subsumes excepted (narrow.indexSplat on operand state)
      (wide.indexSplat on other state)
  unary (on : κ) (op : UnaryOperator) {operand other : Operand σ κ}
    (inner : operand.Within excepted other) (state : σ) :
    Subsumes excepted (narrow.unary on op operand state) (wide.unary on op other state)
  binary (on : κ) (op : BinaryOperator) {left right left' right' : Operand σ κ}
    (first : left.Within excepted left') (second : right.Within excepted right') (state : σ) :
    Subsumes excepted (narrow.binary on op left right state)
      (wide.binary on op left' right' state)

namespace Evaluation

variable (host : Host σ κ φ) {narrow wide : Extension σ κ}

mutual

/-- By induction on the expression. The extensions get operands that are evaluated in them. -/
theorem evaluate_subsumes (within : narrow.Within excepted wide) :
    ∀ (expression : Expression) (on : κ) (state : σ),
      Subsumes excepted (evaluate host narrow on expression state)
        (evaluate host wide on expression state)
  | .literal _, _, _ | .identifier _, _, _ => by
      rw [evaluate, evaluate]
      exact .refl _
  | .array items, on, state => by
      rw [evaluate, evaluate]
      exact .bind (members_subsume within items on state) fun _ _ => .refl _
  | .object fields, on, state => by
      rw [evaluate, evaluate]
      exact .bind (entries_subsume within fields on state) fun _ _ => .refl _
  | .call function arguments, on, state => by
      rw [evaluate, evaluate]
      exact within.call on function (operands_subsume within arguments on) state
  | .getAttr value name, on, state => by
      rw [evaluate, evaluate]
      refine within.getAttr on name ?_ state
      exact evaluate_subsumes within value on
  | .getIndex value index, on, state => by
      rw [evaluate, evaluate]
      refine within.getIndex on index ?_ state
      exact evaluate_subsumes within value on
  | .attrSplat value, on, state => by
      rw [evaluate, evaluate]
      refine within.attrSplat on ?_ state
      exact evaluate_subsumes within value on
  | .indexSplat value, on, state => by
      rw [evaluate, evaluate]
      refine within.indexSplat on ?_ state
      exact evaluate_subsumes within value on
  | .unary op operand, on, state => by
      rw [evaluate, evaluate]
      refine within.unary on op ?_ state
      exact evaluate_subsumes within operand on
  | .binary op left right, on, state => by
      rw [evaluate, evaluate]
      refine within.binary on op ?_ ?_ state
      · exact evaluate_subsumes within left on
      · exact evaluate_subsumes within right on

theorem members_subsume (within : narrow.Within excepted wide) :
    ∀ (items : List Expression) (on : κ) (state : σ),
      Subsumes excepted (members host narrow on items state) (members host wide on items state)
  | [], _, _ => by
      rw [members, members]
      exact .refl _
  | item :: rest, on, state => by
      rw [members, members]
      refine .bind (evaluate_subsumes within item on state) fun value _ => ?_
      refine .bind (.refl _) fun scalar last => ?_
      exact .bind (members_subsume within rest on last) fun _ _ => .refl _

theorem entries_subsume (within : narrow.Within excepted wide) :
    ∀ (fields : List (String × Expression)) (on : κ) (state : σ),
      Subsumes excepted (entries host narrow on fields state) (entries host wide on fields state)
  | [], _, _ => by
      rw [entries, entries]
      exact .refl _
  | (key, item) :: rest, on, state => by
      rw [entries, entries]
      refine .bind (evaluate_subsumes within item on state) fun value _ => ?_
      refine .bind (.refl _) fun scalar last => ?_
      exact .bind (entries_subsume within rest on last) fun _ _ => .refl _

theorem operands_subsume (within : narrow.Within excepted wide) :
    ∀ (items : List Expression) (on : κ),
      List.Forall₂ (Operand.Within excepted) (operands host narrow on items)
        (operands host wide on items)
  | [], _ => by
      rw [operands, operands]
      exact .nil
  | item :: rest, on => by
      rw [operands, operands]
      exact .cons (evaluate_subsumes within item on) (operands_subsume within rest on)

end

end Evaluation

end ConfigLang
