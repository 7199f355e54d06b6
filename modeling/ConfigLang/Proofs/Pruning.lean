import ConfigLang.Execution
/-!
Leaving blocks out. To carry out a document with some blocks deselected is to carry out the
document without them.
-/

set_option autoImplicit false

namespace ConfigLang

namespace Selection

mutual

/-- What is left of a statement. A block that is not selected takes its labels and its body with
it. -/
def keep (selection : Selection) : Statement → Option Statement
  | .assign key value => some (.assign key value)
  | .block name labels body =>
    if selection.allows name then some (.block name labels (prune selection body)) else none

/-- The statements without the blocks that are not selected, at every depth. -/
def prune (selection : Selection) : List Statement → List Statement
  | [] => []
  | first :: rest =>
    match keep selection first with
    | some kept => kept :: prune selection rest
    | none => prune selection rest

end

/-- The document without the blocks that are not selected. -/
def pruned (selection : Selection) (document : Document) : Document :=
  ⟨selection.prune document.body⟩

theorem allows_everything (name : String) : ({} : Selection).allows name = true := rfl

theorem prune_cons_of_kept (selection : Selection) (first kept : Statement) (rest : List Statement)
    (left : selection.keep first = some kept) :
    selection.prune (first :: rest) = kept :: selection.prune rest := by
  rw [prune, left]

theorem prune_cons_of_dropped (selection : Selection) (first : Statement) (rest : List Statement)
    (dropped : selection.keep first = none) :
    selection.prune (first :: rest) = selection.prune rest := by
  rw [prune, dropped]

end Selection

namespace Executor

variable {σ κ φ : Type}

/-- What is done with an attribute does not depend on the selection. -/
theorem statement_assign_selecting (host : Host σ κ φ) (executor : Executor σ κ)
    (selection : Selection) (on : κ) (key : String) (value : Expression) :
    (executor.selecting selection).statement host on (.assign key value) =
      executor.statement host on (.assign key value) := by
  rw [statement, statement]
  rfl

/-- A block that is not selected makes no call and leaves the state as it was. -/
theorem statement_deselected (host : Host σ κ φ) (executor : Executor σ κ) (on : κ) (name : String)
    (labels : List Expression) (body : List Statement)
    (deselected : ¬executor.selection.allows name = true) :
    executor.statement host on (.block name labels body) = pure () := by
  rw [statement, if_neg deselected]

theorem statements_cons_of_nothing (host : Host σ κ φ) (executor : Executor σ κ) (on : κ)
    (first : Statement) (rest : List Statement)
    (nothing : executor.statement host on first = pure ()) :
    executor.statements host on (first :: rest) = executor.statements host on rest := by
  rw [statements, nothing]
  rfl

/-- A block does the same under two executors that both carry it out, if its body does. -/
theorem statement_block_congr (host : Host σ κ φ) (executor : Executor σ κ) (selection : Selection)
    (on : κ) (name : String) (labels : List Expression) (body other : List Statement)
    (selected : executor.selection.allows name = true) (again : selection.allows name = true)
    (same : ∀ child, executor.statements host child body =
      (executor.selecting selection).statements host child other) :
    executor.statement host on (.block name labels body) =
      (executor.selecting selection).statement host on (.block name labels other) := by
  have chosen : (executor.selecting selection).selection.allows name = true := again
  rw [statement, statement, if_pos selected, if_pos chosen]
  simp only [same]
  rfl

mutual

/-- A statement does what is left of it does, in every context, and nothing if nothing is left. -/
theorem statement_keep (host : Host σ κ φ) (executor : Executor σ κ) :
    ∀ (first : Statement) (on : κ),
      match executor.selection.keep first with
      | some kept =>
        executor.statement host on first = (executor.selecting {}).statement host on kept
      | none => executor.statement host on first = pure ()
  | .assign key value, on => by
      rw [Selection.keep]
      exact (statement_assign_selecting host executor {} on key value).symm
  | .block name labels body, on => by
      by_cases selected : executor.selection.allows name = true
      · rw [Selection.keep, if_pos selected]
        exact statement_block_congr host executor {} on name labels body _ selected
          (Selection.allows_everything name) (statements_prune host executor body)
      · rw [Selection.keep, if_neg selected]
        exact statement_deselected host executor on name labels body selected

/-- Statements do what is left of them does, in every context. -/
theorem statements_prune (host : Host σ κ φ) (executor : Executor σ κ) :
    ∀ (body : List Statement) (on : κ), executor.statements host on body =
      (executor.selecting {}).statements host on (executor.selection.prune body)
  | [], on => by
      rw [Selection.prune, statements, statements]
  | first :: rest, on => by
      have others := statements_prune host executor rest on
      have same := statement_keep host executor first on
      cases left : executor.selection.keep first with
      | some kept =>
          rw [left] at same
          rw [Selection.prune_cons_of_kept _ _ _ _ left, statements, statements, same, others]
      | none =>
          rw [left] at same
          rw [Selection.prune_cons_of_dropped _ _ _ left, ← others]
          exact statements_cons_of_nothing host executor on first rest same

end

/-- To deselect blocks is to leave them out: the same calls are made in the same order, and the
result and the state at the end are the same. -/
theorem execute_pruned (host : Host σ κ φ) (executor : Executor σ κ) (root : κ)
    (document : Document) :
    executor.execute host root document =
      (executor.selecting {}).execute host root (executor.selection.pruned document) := by
  rw [execute, execute]
  exact statements_prune host executor document.body root

end Executor

end ConfigLang
