import ConfigLang.Execution
import ConfigLang.Proofs.Subsumption
/-!
Extensions of the base evaluation. An expression that the base evaluation supports means the same
under every extension. Where the base evaluation gets stuck, an extension has made the same calls
until then. Both hold of whole documents as well.
-/

set_option autoImplicit false

namespace ConfigLang

variable {σ κ φ ε ε' α β : Type}

def Failure.IsUnsupported (failure : Failure) : Prop :=
  ∃ kind, failure = .unsupported kind

/-- A run that ends at an expression without a meaning. -/
def Outcome.IsStuck (outcome : Outcome σ ε α) : Prop :=
  ∃ kind, outcome.result = .error (.unsupported kind)

/-- The second run does all that the first one does, and the same if that is not stuck. -/
structure Widens (narrow wide : Outcome σ ε α) : Prop where
  same : ¬narrow.IsStuck → wide = narrow
  calls : narrow.calls <+: wide.calls

namespace Widens

protected theorem refl (outcome : Outcome σ ε α) : Widens outcome outcome :=
  ⟨fun _ => rfl, List.prefix_rfl⟩

theorem iff_subsumes {narrow wide : Outcome σ ε α} :
    Widens narrow wide ↔ Subsumes Failure.IsUnsupported narrow wide := by
  have stuck : (∀ failure, narrow.result = .error failure → ¬failure.IsUnsupported) ↔
      ¬narrow.IsStuck := by
    constructor
    · rintro spared ⟨kind, failed⟩
      exact spared _ failed ⟨kind, rfl⟩
    · rintro supported failure failed ⟨kind, rfl⟩
      exact supported ⟨kind, failed⟩
  constructor
  · intro widens
    exact ⟨fun spared => widens.same (stuck.mp spared), widens.calls⟩
  · intro subsumes
    exact ⟨fun supported => subsumes.same (stuck.mpr supported), subsumes.calls⟩

theorem bind {first other : Run σ ε α} {next more : α → Run σ ε β} {state : σ}
    (before : Widens (first state) (other state))
    (after : ∀ value state, Widens (next value state) (more value state)) :
    Widens ((first >>= next) state) ((other >>= more) state) :=
  iff_subsumes.mpr (.bind (iff_subsumes.mp before) fun value state =>
    iff_subsumes.mp (after value state))

theorem relabel {run other : Run σ ε α} {state : σ} (widens : Widens (run state) (other state))
    (label : ε → ε') : Widens (run.relabel label state) (other.relabel label state) := by
  refine ⟨fun supported => ?_, widens.calls.map label⟩
  have alike : other state = run state := widens.same supported
  change Outcome.mk _ _ _ = Outcome.mk _ _ _
  rw [alike]

end Widens

/-- The base does nothing with its operands, and supports nothing beyond itself. -/
theorem Extension.base_within (extension : Extension σ κ) :
    Extension.base.Within Failure.IsUnsupported extension where
  call _ _ _ _ _ state := .fail ⟨_, rfl⟩ state _
  getAttr _ _ _ _ _ state := .fail ⟨_, rfl⟩ state _
  getIndex _ _ _ _ _ state := .fail ⟨_, rfl⟩ state _
  attrSplat _ _ _ _ state := .fail ⟨_, rfl⟩ state _
  indexSplat _ _ _ _ state := .fail ⟨_, rfl⟩ state _
  unary _ _ _ _ _ state := .fail ⟨_, rfl⟩ state _
  binary _ _ _ _ _ _ _ _ state := .fail ⟨_, rfl⟩ state _

namespace Executor

variable {narrow wide : Evaluator σ κ}

/-- One evaluator widens the other on every expression, in every context and state. -/
def Refines (narrow wide : Evaluator σ κ) : Prop :=
  ∀ on expression state, Widens (narrow on expression state) (wide on expression state)

theorem labels_widen (refines : Refines narrow wide) (selection : Selection)
    (heads : List Expression) (on : κ) (state : σ) :
    Widens (labels ⟨narrow, selection⟩ on heads state)
      (labels ⟨wide, selection⟩ on heads state) := by
  apply Widens.relabel
  induction heads generalizing state with
  | nil => exact .refl _
  | cons head rest ih =>
      rw [Evaluation.evaluateAll, Evaluation.evaluateAll]
      refine .bind (refines on head state) fun value _ => ?_
      exact .bind (ih _) fun _ _ => .refl _

/-- The host is asked to open and to close a block in the same way, if the labels have the same
values and the body comes to its end. -/
theorem block_widens (host : Host σ κ φ) (refines : Refines narrow wide) (selection : Selection)
    (name : String) (heads : List Expression) (body : List Statement)
    (inner : ∀ (child : κ) (state : σ),
      Widens (statements host ⟨narrow, selection⟩ child body state)
        (statements host ⟨wide, selection⟩ child body state)) (on : κ) (state : σ) :
    Widens (statement host ⟨narrow, selection⟩ on (.block name heads body) state)
      (statement host ⟨wide, selection⟩ on (.block name heads body) state) := by
  rw [statement, statement]
  by_cases selected : selection.allows name = true
  · rw [if_pos selected, if_pos selected]
    refine .bind (labels_widen refines selection heads on state) fun values _ => ?_
    refine .bind (.refl _) fun child _ => ?_
    exact .bind (inner child _) fun _ _ => .refl _
  · rw [if_neg selected, if_neg selected]
    exact .refl _

mutual

theorem statement_widens (host : Host σ κ φ) (refines : Refines narrow wide)
    (selection : Selection) : ∀ (first : Statement) (on : κ) (state : σ),
      Widens (statement host ⟨narrow, selection⟩ on first state)
        (statement host ⟨wide, selection⟩ on first state)
  | .assign key value, on, state => by
      rw [statement, statement]
      exact .bind (.relabel (refines on value state) _) fun _ _ => .refl _
  | .block name heads body, on, state =>
      block_widens host refines selection name heads body
        (statements_widen host refines selection body) on state

theorem statements_widen (host : Host σ κ φ) (refines : Refines narrow wide)
    (selection : Selection) : ∀ (body : List Statement) (on : κ) (state : σ),
      Widens (statements host ⟨narrow, selection⟩ on body state)
        (statements host ⟨wide, selection⟩ on body state)
  | [], _, _ => by
      rw [statements, statements]
      exact .refl _
  | first :: rest, on, state => by
      rw [statements, statements]
      refine .bind (statement_widens host refines selection first on state) fun _ _ => ?_
      exact statements_widen host refines selection rest on _

end

/-- Whatever an extension makes of calls, projections and operations: an expression that the base
evaluator can evaluate, or refuses for another reason than that it is unsupported, has the same
result under the extension, with the same calls, and in any case the calls of the base evaluator
come first. The same holds of a document that is carried out under the two, whatever blocks are
selected. -/
theorem extension_conservative (host : Host σ κ φ) (extension : Extension σ κ) :
    (∀ on expression state, Widens (Evaluator.base host on expression state)
      (Evaluation.evaluate host extension on expression state)) ∧
    ∀ selection root document state,
      Widens (execute host ⟨.base host, selection⟩ root document state)
        (execute host ⟨Evaluation.evaluate host extension, selection⟩ root document state) := by
  have refines : Refines (.base host) (Evaluation.evaluate host extension) :=
    fun on expression state => Widens.iff_subsumes.mpr
      (Evaluation.evaluate_subsumes host (Extension.base_within extension) expression on state)
  exact ⟨refines, fun selection root document state =>
    statements_widen host refines selection document.body root state⟩

end Executor

end ConfigLang
