import ConfigLang.Operators
import ConfigLang.Proofs.Entries
import ConfigLang.Proofs.Lowering
import ConfigLang.Recorder
/-!
Objects with repeated keys. An object has a key where it was first given, with the expression that
was given last. Only these expressions are evaluated, one after the other, and the map that they
make has the keys of the object.
-/

set_option autoImplicit false

namespace ConfigLang

/-! ### Evaluation -/

variable {σ κ φ : Type}

theorem Run.bind_pure {ε α β : Type} (first : Run σ ε α) (make : α → β) (state : σ) :
    (first >>= fun value => pure (make value)) state =
      ⟨(first state).result.map make, (first state).state, (first state).calls⟩ := by
  cases came : (first state).result with
  | ok value =>
      rw [bind_of_ok _ _ _ _ came]
      exact congrArg (Outcome.mk _ _) (List.append_nil _)
  | error failure =>
      rw [bind_of_error _ _ _ _ came]
      rfl

namespace Evaluator

/-- Outcomes of expressions in order, each from the state in which the one before it ended. They may
stop before the last of the expressions. -/
inductive InTurn (evaluator : Evaluator σ κ) (on : κ) :
    List Expression → σ → List (Outcome σ (Query κ) Value) → Prop
  | stop {expressions : List Expression} {state : σ} : InTurn evaluator on expressions state []
  | next {expression : Expression} {rest : List Expression} {state : σ}
      {outcomes : List (Outcome σ (Query κ) Value)}
      (others : InTurn evaluator on rest (evaluator on expression state).state outcomes) :
      InTurn evaluator on (expression :: rest) state (evaluator on expression state :: outcomes)

/-- The calls for an object are those of the expressions of its fields, one after the other. If it
has a value, this is a map of all the fields in order, with the values of their expressions. -/
def MapsEach (evaluator : Evaluator σ κ) (fields : Fields Expression) : Prop :=
  ∀ on state, ∃ outcomes,
    InTurn evaluator on (fields.map Prod.snd) state outcomes ∧
    (evaluator on (.object fields) state).calls = outcomes.flatMap Outcome.calls ∧
    ∀ value, (evaluator on (.object fields) state).result = .ok value →
      ∃ values : Fields Scalar, value = .map values ∧
        Fields.names values = Fields.names fields ∧
        outcomes.map Outcome.result = values.map fun entry => .ok (.scalar entry.2)

end Evaluator

namespace Evaluation

variable (host : Host σ κ φ) (extension : Extension σ κ) (on : κ)

/-- A member that has no scalar value ends the evaluation of the entries. -/
theorem entries_of_not_scalar {item : Expression} {state : σ} (key : String)
    (rest : List (String × Expression))
    (fails : ∀ scalar, (evaluate host extension on item state).result ≠ .ok (.scalar scalar)) :
    (entries host extension on ((key, item) :: rest) state).calls =
        (evaluate host extension on item state).calls ∧
      ∀ values, (entries host extension on ((key, item) :: rest) state).result ≠ .ok values := by
  rw [entries]
  cases came : (evaluate host extension on item state).result with
  | error failure =>
      rw [Run.bind_of_error _ _ _ _ came]
      exact ⟨rfl, fun _ done => by cases done⟩
  | ok value =>
      rw [Run.bind_of_ok _ _ _ _ came]
      cases value with
      | scalar scalar => exact absurd came (fails scalar)
      | list items => exact ⟨List.append_nil _, fun _ done => by cases done⟩
      | map entries => exact ⟨List.append_nil _, fun _ done => by cases done⟩

theorem entries_of_scalar {item : Expression} {state : σ} {scalar : Scalar} (key : String)
    (rest : List (String × Expression))
    (success : (evaluate host extension on item state).result = .ok (.scalar scalar)) :
    let first := evaluate host extension on item state
    let others := entries host extension on rest first.state
    entries host extension on ((key, item) :: rest) state =
      ⟨others.result.map ((key, scalar) :: ·), others.state, first.calls ++ others.calls⟩ := by
  intro first others
  have follow := Run.bind_pure (entries host extension on rest) ((key, scalar) :: ·) first.state
  rw [entries, Run.bind_of_ok _ _ _ _ success]
  change Outcome.mk ((entries host extension on rest >>= _) first.state).result
    ((entries host extension on rest >>= _) first.state).state
    (first.calls ++ ((entries host extension on rest >>= _) first.state).calls) = _
  rw [follow]

/-- By induction on the fields. Either the first expression comes to a scalar and the others follow
from the state behind it, or it is the last one that is evaluated. -/
theorem entries_each (fields : Fields Expression) (state : σ) :
    ∃ outcomes,
      Evaluator.InTurn (evaluate host extension) on (fields.map Prod.snd) state outcomes ∧
      (entries host extension on fields state).calls = outcomes.flatMap Outcome.calls ∧
      ∀ values, (entries host extension on fields state).result = .ok values →
        Fields.names values = Fields.names fields ∧
          outcomes.map Outcome.result = values.map fun entry => .ok (.scalar entry.2) := by
  induction fields generalizing state with
  | nil =>
      refine ⟨[], .stop, by rw [entries]; rfl, fun values done => ?_⟩
      rw [entries] at done
      cases done
      exact ⟨rfl, rfl⟩
  | cons field rest ih =>
      obtain ⟨key, item⟩ := field
      by_cases success : ∃ scalar, (evaluate host extension on item state).result =
        .ok (.scalar scalar)
      · obtain ⟨scalar, success⟩ := success
        obtain ⟨outcomes, turns, calls, all⟩ := ih (evaluate host extension on item state).state
        rw [entries_of_scalar host extension on key rest success]
        refine ⟨_ :: outcomes, .next turns, ?_, fun values done => ?_⟩
        · rw [calls, List.flatMap_cons]
        · cases came : (entries host extension on rest
              (evaluate host extension on item state).state).result with
          | error failure =>
              rw [came] at done
              cases done
          | ok others =>
              rw [came] at done
              cases done
              obtain ⟨names, scalars⟩ := all others came
              exact ⟨congrArg (key :: ·) names, congrArg₂ List.cons success scalars⟩
      · obtain ⟨made, fails⟩ := entries_of_not_scalar host extension on key rest
          (not_exists.mp success)
        refine ⟨[_], .next .stop, ?_, fun values done => absurd done (fails values)⟩
        rw [made, List.flatMap_singleton]

theorem evaluate_mapsEach (fields : Fields Expression) :
    Evaluator.MapsEach (evaluate host extension) fields := by
  intro on state
  obtain ⟨outcomes, turns, calls, all⟩ := entries_each host extension on fields state
  refine ⟨outcomes, turns, ?_⟩
  rw [evaluate, Run.bind_pure]
  refine ⟨calls, fun value done => ?_⟩
  cases came : (entries host extension on fields state).result with
  | error failure =>
      rw [came] at done
      cases done
  | ok values =>
      rw [came] at done
      cases done
      exact ⟨values, rfl, all values came⟩

end Evaluation

/-! ### Trees of objects -/

namespace Part

/-- An object with these elements between the newlines. -/
def IsObjectOf (tree : Tree) (elements : List (String × Expression)) : Prop :=
  ∃ line children, tree = .node .object line children ∧
    MeanAll children (elements.map fun entry => .element entry.1 entry.2)

/-- The elements of an object, with whatever repetitions of keys, make fields that have each key
once, where it stands first, with the expression that it has last. An expression that is replaced by
a later one has no influence on the fields. When the object is evaluated, with or without operators,
the calls are those of the fields' expressions in order. A value is a map of all the fields, and
would be the same map if its entries were inserted one after the other. -/
theorem object_gathers (elements : List (String × Expression)) :
    ∃ fields : Fields Expression,
      (∀ tree, IsObjectOf tree elements → Means tree (.expression (.object fields))) ∧
      Fields.Gathers elements fields ∧
      (∀ before name shadowed after, elements = before ++ (name, shadowed) :: after →
        name ∈ Fields.names after → ∀ other tree,
          IsObjectOf tree (before ++ (name, other) :: after) →
            Means tree (.expression (.object fields))) ∧
      (∀ values : Fields Scalar, Fields.names values = Fields.names fields →
        Fields.ofList values = values) ∧
      ∀ {σ κ φ : Type} (host : Host σ κ φ), (Evaluator.base host).MapsEach fields ∧
        ∀ table, (Evaluator.operators host table).MapsEach fields := by
  have gathers := Fields.Gathers.ofList elements
  have means : ∀ elements tree, IsObjectOf tree elements →
      Means tree (.expression (.object (Fields.ofList elements))) := by
    rintro elements tree ⟨line, children, rfl, inner⟩
    exact means_object inner
  refine ⟨Fields.ofList elements, means elements, gathers, ?_, ?_, fun host => ⟨?_, fun _ => ?_⟩⟩
  · rintro before name shadowed after rfl again other tree is
    have same : Fields.ofList (before ++ (name, shadowed) :: after) =
        Fields.ofList (before ++ (name, other) :: after) := by
      refine gathers.eq_of_last (.ofList _) ?_ fun wanted => ?_
      · simp only [Fields.names, List.map_append, List.map_cons]
      · rw [Fields.last?_shadowed again, Fields.last?_shadowed again]
    rw [same]
    exact means _ tree is
  · intro values names
    have distinct : (Fields.names values).Nodup := names ▸ gathers.distinct
    exact Fields.ofList_of_nodup distinct
  · exact Evaluation.evaluate_mapsEach host .base _
  · exact Evaluation.evaluate_mapsEach host _ _

/-- A key that is given twice, first with a name that the host does not know. -/
theorem object_gathers_twice :
    let element (key : String) (value : Tree) : Tree :=
      .node .objectElement 1 [Grammar.leaf .identifier ⟨.ident key, .start⟩, value]
    let number (value : Int64) : Tree := Grammar.leaf .int ⟨.int value, .start⟩
    let object (first : Tree) : Tree :=
      .node .object 1 [element "a" first, element "b" (number 1), element "a" (number 2)]
    let name : Tree := .node .term 1 [Grammar.leaf .identifier ⟨.ident "x", .start⟩]
    let elements (first : Expression) : List (String × Expression) :=
      [("a", first), ("b", .literal (.int 1)), ("a", .literal (.int 2))]
    let host := Recorder.host {}
    IsObjectOf (object name) (elements (.identifier "x")) ∧
      IsObjectOf (object (number 7)) (elements (.literal (.int 7))) ∧
      ∃ fields : Fields Expression, fields = [("a", .literal (.int 2)), ("b", .literal (.int 1))] ∧
        Means (object name) (.expression (.object fields)) ∧
        Means (object (number 7)) (.expression (.object fields)) ∧
        Fields.ofList [("a", Scalar.int 2), ("b", .int 1)] = [("a", .int 2), ("b", .int 1)] ∧
        (Evaluator.base host (.recorded 0) (.object fields) .initial).result =
          .ok (.map [("a", .int 2), ("b", .int 1)]) ∧
        ∃ outcomes,
          Evaluator.InTurn (.base host) (.recorded 0) (fields.map Prod.snd) .initial outcomes ∧
          outcomes.map Outcome.result = [.ok (.scalar (.int 2)), .ok (.scalar (.int 1))] := by
  intro element number object name elements host
  have is : IsObjectOf (object name) (elements (.identifier "x")) := ⟨1, _, rfl, _, rfl, rfl⟩
  have instead : IsObjectOf (object (number 7)) (elements (.literal (.int 7))) :=
    ⟨1, _, rfl, _, rfl, rfl⟩
  refine ⟨is, instead, ?_⟩
  obtain ⟨fields, means, -, same, collects, maps⟩ := object_gathers (elements (.identifier "x"))
  have made : Means (object name) (.expression (.object
    [("a", .literal (.int 2)), ("b", .literal (.int 1))])) := rfl
  obtain rfl : fields = [("a", .literal (.int 2)), ("b", .literal (.int 1))] := by
    have both := (means _ is).symm.trans made
    cases both
    rfl
  have again : "a" ∈ Fields.names (elements (.identifier "x")).tail := by decide
  refine ⟨_, rfl, made, same [] "a" _ _ rfl again _ _ instead, collects _ rfl, ?_⟩
  obtain ⟨outcomes, turns, -, all⟩ := (maps host).1 (.recorded 0) .initial
  obtain ⟨values, whole, -, results⟩ := all (.map [("a", .int 2), ("b", .int 1)]) rfl
  cases whole
  exact ⟨rfl, outcomes, turns, results⟩

end Part

end ConfigLang
