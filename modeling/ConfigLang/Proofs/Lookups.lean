import ConfigLang.Operators
/-!
The order of evaluation. What an expression asks its context for is listed from the expression
alone. An evaluation with operators asks for that list from its beginning on, and for all of it if
it comes to a value, so that no operator leaves out its right operand.
-/

set_option autoImplicit false

namespace ConfigLang

variable {σ κ φ α β : Type}

namespace Expression

mutual

/-- What an expression asks a context for, in order. A function is looked up behind its arguments.
Nothing in an index or a splat is evaluated. -/
def lookups (on : κ) : Expression → List (Query κ)
  | .literal _ | .getIndex _ _ | .attrSplat _ | .indexSplat _ => []
  | .identifier name => [.attr on name]
  | .array items => lookupsAll on items
  | .object fields => lookupsFields on fields
  | .call function arguments => lookupsAll on arguments ++ [.function on function]
  | .getAttr value _ => lookups on value
  | .unary _ operand => lookups on operand
  | .binary _ left right => lookups on left ++ lookups on right

/-- What several expressions ask for, one after the other. -/
def lookupsAll (on : κ) : List Expression → List (Query κ)
  | [] => []
  | item :: rest => lookups on item ++ lookupsAll on rest

/-- What the values of fields ask for, one after the other. -/
def lookupsFields (on : κ) : List (String × Expression) → List (Query κ)
  | [] => []
  | (_, item) :: rest => lookups on item ++ lookupsFields on rest

end

end Expression

/-- The calls of a run are those that were to be made: all of them if it comes to a value, and
otherwise the first of them. -/
structure Asks (asked : List (Query κ)) (outcome : Outcome σ (Query κ) α) : Prop where
  whole : ∀ value, outcome.result = .ok value → outcome.calls = asked
  begins : outcome.calls <+: asked

namespace Asks

variable {asked others : List (Query κ)}

/-- A run that makes all its calls may come to anything. -/
theorem of_calls_eq {outcome : Outcome σ (Query κ) α} (same : outcome.calls = asked) :
    Asks asked outcome :=
  ⟨fun _ _ => same, same ▸ List.prefix_rfl⟩

/-- What is asked for second is asked for behind all of the first, or not at all. -/
theorem bind {first : Run σ (Query κ) α} {next : α → Run σ (Query κ) β} {state : σ}
    (before : Asks asked (first state)) (behind : ∀ value state, Asks others (next value state)) :
    Asks (asked ++ others) ((first >>= next) state) := by
  cases came : (first state).result with
  | ok value =>
      have follow := behind value (first state).state
      have whole : (first state).calls = asked := before.whole value came
      rw [Run.bind_of_ok first next state value came, whole]
      refine ⟨fun result done => ?_, ?_⟩
      · exact congrArg (asked ++ ·) (follow.whole result done)
      · exact (List.prefix_append_right_inj asked).mpr follow.begins
  | error failure =>
      rw [Run.bind_of_error first next state failure came]
      refine ⟨fun value done => ?_, before.begins.trans (List.prefix_append asked others)⟩
      cases done

/-- What follows makes no calls. -/
theorem bind_silent {first : Run σ (Query κ) α} {next : α → Run σ (Query κ) β} {state : σ}
    (before : Asks asked (first state)) (silent : ∀ value state, Asks [] (next value state)) :
    Asks asked ((first >>= next) state) := by
  rw [← List.append_nil asked]
  exact bind before silent

theorem ofExcept (result : Except Failure α) (state : σ) :
    Asks ([] : List (Query κ)) (Run.ofExcept result state) := by
  cases result with
  | ok value => exact .of_calls_eq rfl
  | error failure => exact .of_calls_eq rfl

theorem member (value : Value) (state : σ) :
    Asks ([] : List (Query κ)) (Evaluation.member value state) := by
  unfold Evaluation.member
  cases value.toScalar with
  | ok scalar => exact .of_calls_eq rfl
  | error collection => exact .of_calls_eq rfl

end Asks

namespace Operators

variable (host : Host σ κ φ) (table : OperatorTable) (on : κ) {asked others : List (Query κ)}

/-- The map is at hand already, so to look a key up asks for nothing. -/
theorem attr_asks (name : String) (value : Value) (state : σ) :
    Asks [] (attr host on name value state) := by
  cases value with
  | map entries =>
      unfold attr
      dsimp only
      cases entries.find? name with
      | some scalar => exact .of_calls_eq rfl
      | none => exact .of_calls_eq rfl
  | _ => exact .of_calls_eq rfl

theorem call_asks (function : String) {arguments : List (Operand σ κ)}
    (before : ∀ state, Asks asked (all arguments state)) (state : σ) :
    Asks (asked ++ [.function on function])
      ((extension host table).call on function arguments state) := by
  refine .bind (before state) fun values _ => ?_
  exact .bind_silent (.of_calls_eq rfl) fun _ _ => .of_calls_eq rfl

theorem getAttr_asks (name : String) {operand : Operand σ κ} {state : σ}
    (inner : Asks asked (operand.evaluate state)) :
    Asks asked ((extension host table).getAttr on operand name state) :=
  .bind_silent inner (attr_asks host on name)

theorem unary_asks (op : UnaryOperator) {operand : Operand σ κ} {state : σ}
    (inner : Asks asked (operand.evaluate state)) :
    Asks asked ((extension host table).unary on op operand state) := by
  refine .bind_silent inner fun value _ => ?_
  refine .bind_silent (.ofExcept _ _) fun scalar _ => ?_
  exact .bind_silent (.ofExcept _ _) fun _ _ => .of_calls_eq rfl

/-- Whatever the left operand is, the right one is evaluated next, unless the left one fails or is
no scalar. -/
theorem binary_asks (op : BinaryOperator) {left right : Operand σ κ} {state : σ}
    (first : Asks asked (left.evaluate state))
    (second : ∀ state, Asks others (right.evaluate state)) :
    Asks (asked ++ others) ((extension host table).binary on op left right state) := by
  refine .bind first fun leftValue _ => ?_
  rw [← List.nil_append others]
  refine .bind (.ofExcept _ _) fun leftScalar last => ?_
  refine .bind_silent (second last) fun rightValue _ => ?_
  refine .bind_silent (.ofExcept _ _) fun rightScalar _ => ?_
  exact .bind_silent (.ofExcept _ _) fun _ _ => .of_calls_eq rfl

end Operators

namespace Evaluation

variable (host : Host σ κ φ) (table : OperatorTable)

mutual

/-- By induction on the expression, with one lemma for what the operators make of each kind. -/
theorem evaluate_asks : ∀ (expression : Expression) (on : κ) (state : σ),
    Asks (expression.lookups on)
      (evaluate host (Operators.extension host table) on expression state)
  | .literal _, _, _ | .identifier _, _, _ | .getIndex _ _, _, _ | .attrSplat _, _, _
  | .indexSplat _, _, _ => by
      rw [evaluate, Expression.lookups]
      exact .of_calls_eq rfl
  | .array items, on, state => by
      rw [evaluate, Expression.lookups]
      exact .bind_silent (members_ask items on state) fun _ _ => .of_calls_eq rfl
  | .object fields, on, state => by
      rw [evaluate, Expression.lookups]
      exact .bind_silent (entries_ask fields on state) fun _ _ => .of_calls_eq rfl
  | .call function arguments, on, state => by
      rw [evaluate, Expression.lookups]
      exact Operators.call_asks host table on function (operands_ask arguments on) state
  | .getAttr value name, on, state => by
      rw [evaluate, Expression.lookups]
      exact Operators.getAttr_asks host table on name (evaluate_asks value on state)
  | .unary op operand, on, state => by
      rw [evaluate, Expression.lookups]
      exact Operators.unary_asks host table on op (evaluate_asks operand on state)
  | .binary op left right, on, state => by
      rw [evaluate, Expression.lookups]
      exact Operators.binary_asks host table on op (evaluate_asks left on state)
        (evaluate_asks right on)

theorem members_ask : ∀ (items : List Expression) (on : κ) (state : σ),
    Asks (Expression.lookupsAll on items)
      (members host (Operators.extension host table) on items state)
  | [], _, _ => by
      rw [members, Expression.lookupsAll]
      exact .of_calls_eq rfl
  | item :: rest, on, state => by
      rw [members, Expression.lookupsAll]
      refine .bind (evaluate_asks item on state) fun value _ => ?_
      rw [← List.nil_append (Expression.lookupsAll on rest)]
      refine .bind (.member value _) fun scalar last => ?_
      exact .bind_silent (members_ask rest on last) fun _ _ => .of_calls_eq rfl

theorem entries_ask : ∀ (fields : List (String × Expression)) (on : κ) (state : σ),
    Asks (Expression.lookupsFields on fields)
      (entries host (Operators.extension host table) on fields state)
  | [], _, _ => by
      rw [entries, Expression.lookupsFields]
      exact .of_calls_eq rfl
  | (key, item) :: rest, on, state => by
      rw [entries, Expression.lookupsFields]
      refine .bind (evaluate_asks item on state) fun value _ => ?_
      rw [← List.nil_append (Expression.lookupsFields on rest)]
      refine .bind (.member value _) fun scalar last => ?_
      exact .bind_silent (entries_ask rest on last) fun _ _ => .of_calls_eq rfl

/-- Arguments need not be scalars. -/
theorem operands_ask : ∀ (items : List Expression) (on : κ) (state : σ),
    Asks (Expression.lookupsAll on items)
      (Operators.all (operands host (Operators.extension host table) on items) state)
  | [], _, _ => by
      rw [operands, Operators.all, Expression.lookupsAll]
      exact .of_calls_eq rfl
  | item :: rest, on, state => by
      rw [operands, Operators.all, Expression.lookupsAll]
      refine .bind (evaluate_asks item on state) fun value last => ?_
      exact .bind_silent (operands_ask rest on last) fun _ _ => .of_calls_eq rfl

end

end Evaluation

/-- Whatever the host answers and whatever operators the table has: an expression that comes to a
value has asked the context for all that it lists, in this order, and one that fails has asked for
the first of it and for nothing else. So both operands of every operator are evaluated, the left
one first, whatever the operator is. -/
theorem Evaluator.operators_asks_lookups (host : Host σ κ φ) (table : OperatorTable) (on : κ)
    (expression : Expression) (state : σ) :
    Asks (expression.lookups on) (operators host table on expression state) :=
  Evaluation.evaluate_asks host table expression on state

end ConfigLang
