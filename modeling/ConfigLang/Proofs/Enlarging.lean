import ConfigLang.Proofs.Kinds
import ConfigLang.Proofs.Subsumption
/-!
Larger tables of operators. A table that has every handler of another one gives the same results,
except where the smaller table has no handler for two operands. What a table has is up to the last
insertion for each operator and pair of kinds.
-/

set_option autoImplicit false

namespace ConfigLang

variable {σ κ φ : Type}

/-- Operands of kinds that an operator is not defined for. -/
def Failure.IsMismatch (failure : Failure) : Prop :=
  ∃ op left right, failure = .typeMismatch op left right

namespace OperatorTable

/-- The second table has every handler of the first one. -/
def Within (table wider : OperatorTable) : Prop :=
  ∀ signature handler, table.find? signature = some handler →
    wider.find? signature = some handler

/-- Handlers inserted one after the other. -/
def insertEach (table : OperatorTable) (entries : List (Signature × Handler)) : OperatorTable :=
  entries.foldl (fun table entry => table.insert entry.1 entry.2) table

variable (table : OperatorTable) (entries : List (Signature × Handler))

/-- The last entry of a signature counts, and the table where there is no entry. -/
theorem find?_insertEach (signature : Signature) :
    (table.insertEach entries).find? signature =
      ((entries.findRev? fun entry => entry.1 = signature).map Prod.snd).or
        (table.find? signature) := by
  induction entries generalizing table with
  | nil => rfl
  | cons entry rest ih =>
      change ((table.insert entry.1 entry.2).insertEach rest).find? signature = _
      rw [ih, find?_insert, List.findRev?]
      cases rest.findRev? fun entry => entry.1 = signature with
      | some later => rfl
      | none =>
          by_cases same : entry.1 = signature
          · simp [same]
          · simp [same, Ne.symm same]

theorem handlers_insertEach :
    (table.insertEach entries).handlers = entries.reverse ++ table.handlers := by
  induction entries generalizing table with
  | nil => rfl
  | cons entry rest ih =>
      change ((table.insert entry.1 entry.2).insertEach rest).handlers = _
      rw [ih, List.reverse_cons, List.append_assoc]
      rfl

/-- Every table is built up from nothing. -/
theorem eq_insertEach : table = empty.insertEach table.handlers.reverse := by
  have handlers := handlers_insertEach empty table.handlers.reverse
  rw [List.reverse_reverse, empty, List.append_nil] at handlers
  exact congrArg mk handlers.symm

theorem evaluate?_insertEach (op : BinaryOperator) (left right : Scalar) :
    (table.insertEach entries).evaluate? op left right =
      ((entries.findRev? fun entry => entry.1 = ⟨op, left.kind, right.kind⟩).map fun entry =>
        entry.2 op left right).or (table.evaluate? op left right) := by
  rw [evaluate?, find?_insertEach]
  cases entries.findRev? fun entry => entry.1 = ⟨op, left.kind, right.kind⟩ with
  | some entry => rfl
  | none => rfl

/-- A handler for a signature that has none yet. -/
theorem within_insert {signature : Signature} (handler : Handler)
    (free : table.find? signature = none) : table.Within (table.insert signature handler) := by
  intro other found present
  have different : other ≠ signature := by
    rintro rfl
    rw [free] at present
    cases present
  rw [find?_insert_of_ne table signature other handler different, present]

end OperatorTable

namespace Operators

variable (host : Host σ κ φ) {table wider : OperatorTable}

theorem binary_within (within : table.Within wider) (op : BinaryOperator) (left right : Scalar)
    (state : σ) :
    Subsumes Failure.IsMismatch
      ((Run.ofExcept (binary table op left right) : Run σ (Query κ) Scalar) state)
      (Run.ofExcept (binary wider op left right) state) := by
  unfold binary OperatorTable.evaluate?
  cases found : table.find? ⟨op, left.kind, right.kind⟩ with
  | some handler =>
      rw [within _ _ found]
      exact .refl _
  | none => exact .fail ⟨_, _, _, rfl⟩ _ _

theorem all_subsumes {arguments others : List (Operand σ κ)}
    (inner : List.Forall₂ (Operand.Within Failure.IsMismatch) arguments others) (state : σ) :
    Subsumes Failure.IsMismatch (all arguments state) (all others state) := by
  induction inner generalizing state with
  | nil => exact .refl _
  | cons first _ ih =>
      rw [all, all]
      refine .bind (first state) fun value last => ?_
      exact .bind (ih last) fun _ _ => .refl _

/-- Both tables get the same operands of a binary operation, and the smaller one decides whether
there is a handler. -/
theorem extension_within (within : table.Within wider) :
    (extension host table).Within Failure.IsMismatch (extension host wider) where
  call _ _ _ _ inner state := .bind (all_subsumes inner state) fun _ _ => .refl _
  getAttr _ _ _ _ inner state := .bind (inner state) fun _ _ => .refl _
  getIndex _ _ _ _ _ _ := .refl _
  attrSplat _ _ _ _ _ := .refl _
  indexSplat _ _ _ _ _ := .refl _
  unary _ _ _ _ inner state := .bind (inner state) fun _ _ => .refl _
  binary _ op _ _ _ _ first second state := by
    refine .bind (first state) fun leftValue _ => .bind (.refl _) fun leftScalar middle => ?_
    refine .bind (second middle) fun rightValue _ => .bind (.refl _) fun rightScalar last => ?_
    exact .bind (binary_within within op leftScalar rightScalar last) fun _ _ => .refl _

end Operators

namespace Evaluator

/-- With handlers added to a table, an expression has the same outcome, calls and state included,
unless it ended in a mismatch of kinds; in any case the calls until then come first. A table is what
handlers inserted into the empty one make it, and an operator does what the last of its handlers
for the kinds of the operands does. -/
theorem operators_enlarge (host : Host σ κ φ) :
    (∀ table wider, OperatorTable.Within table wider → ∀ on expression state,
      Subsumes Failure.IsMismatch (operators host table on expression state)
        (operators host wider on expression state)) ∧
    (∀ start entries op left right,
      (OperatorTable.insertEach start entries).evaluate? op left right =
        ((entries.findRev? fun entry => entry.1 = ⟨op, left.kind, right.kind⟩).map fun entry =>
          entry.2 op left right).or (start.evaluate? op left right)) ∧
    ∀ table, ∃ entries, table = OperatorTable.insertEach .empty entries := by
  refine ⟨?_, OperatorTable.evaluate?_insertEach, fun table => ⟨_, table.eq_insertEach⟩⟩
  intro table wider within on expression state
  exact Evaluation.evaluate_subsumes host (Operators.extension_within host within) expression on
    state

/-- A handler that takes an integer instead of null leaves a sum of integers as it is. -/
theorem operators_enlarge_null :
    let instead : Handler := fun _ _ right => .ok right
    let wider := OperatorTable.standard.insert ⟨.or, "null", "int"⟩ instead
    let host := Recorder.host { «variables» := [("count", .scalar (.int 3))] }
    let sum : Expression := .binary .add (.identifier "count") (.literal (.int 1))
    OperatorTable.standard.Within wider ∧
      wider.evaluate? .or .null (.int 5) = some (.ok (.int 5)) ∧
      (operators host .standard (.recorded 0) sum .initial).result = .ok (.scalar (.int 4)) ∧
      operators host wider (.recorded 0) sum .initial =
        operators host .standard (.recorded 0) sum .initial := by
  intro instead wider host sum
  have within : OperatorTable.standard.Within wider := OperatorTable.within_insert _ instead rfl
  have result : (operators host .standard (.recorded 0) sum .initial).result =
      .ok (.scalar (.int 4)) := rfl
  refine ⟨within, ?_, result, ?_⟩
  · exact (operators_enlarge host).2.1 .standard [(_, instead)] .or .null (.int 5)
  · apply ((operators_enlarge host).1 _ _ within (.recorded 0) sum .initial).same
    intro failure failed
    rw [result] at failed
    cases failed

end Evaluator

end ConfigLang
