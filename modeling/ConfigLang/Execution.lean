import ConfigLang.Evaluation
/-!
Carrying out documents. An attribute is set in the current context; a block is opened there, its
body goes to the context that the host answers with, and then it is closed. Statements go in
order, and the first failure ends everything.
-/

set_option autoImplicit false

namespace ConfigLang

/-- Which blocks are carried out, by name and at every depth. -/
structure Selection where
  /-- If given, only these. -/
  enabled : Option (List String) := none
  /-- If given, none of these. -/
  disabled : Option (List String) := none
deriving Repr

namespace Selection

def allows (selection : Selection) (name : String) : Bool :=
  selection.enabled.all (·.contains name) && selection.disabled.all (!·.contains name)

/-- Whether two lists have the same names. -/
def sameNames : Option (List String) → Option (List String) → Bool
  | none, none => true
  | some left, some right => left.all right.contains && right.all left.contains
  | _, _ => false

/-- Whether two selections list the same names. -/
def same (left right : Selection) : Bool :=
  sameNames left.enabled right.enabled && sameNames left.disabled right.disabled

end Selection

/-- How documents are carried out. -/
structure Executor (σ κ : Type) where
  evaluator : Evaluator σ κ
  selection : Selection := {}

namespace Executor

variable {σ κ φ : Type}

def enabling (executor : Executor σ κ) (names : List String) : Executor σ κ :=
  { executor with selection := { executor.selection with enabled := some names } }

def disabling (executor : Executor σ κ) (names : List String) : Executor σ κ :=
  { executor with selection := { executor.selection with disabled := some names } }

def selecting (executor : Executor σ κ) (selection : Selection) : Executor σ κ :=
  { executor with selection := selection }

/-- The value of an attribute. -/
def value (executor : Executor σ κ) (on : κ) (expression : Expression) : Run σ (Call κ) Value :=
  (executor.evaluator on expression).relabel .query

/-- The labels of a block, evaluated in the context around it. -/
def labels (executor : Executor σ κ) (on : κ) (labels : List Expression) :
    Run σ (Call κ) (List Value) :=
  (Evaluation.evaluateAll executor.evaluator on labels).relabel .query

mutual

/-- Carries out a statement in a context. A block that is not selected does nothing at all. -/
def statement (host : Host σ κ φ) (executor : Executor σ κ) (on : κ) :
    Statement → Run σ (Call κ) Unit
  | .assign key expression => do
    let value ← executor.value on expression
    host.set on key value
  | .block name labels body =>
    if executor.selection.allows name then do
      let values ← executor.labels on labels
      let child ← host.start on name values
      statements host executor child body
      host.finish on name values child
    else pure ()

/-- Carries out statements in order. -/
def statements (host : Host σ κ φ) (executor : Executor σ κ) (on : κ) :
    List Statement → Run σ (Call κ) Unit
  | [] => pure ()
  | first :: rest => do
    statement host executor on first
    statements host executor on rest

end

/-- Carries out a document in a root context. -/
def execute (host : Host σ κ φ) (executor : Executor σ κ) (root : κ) (document : Document) :
    Run σ (Call κ) Unit :=
  executor.statements host root document.body

/-- Carries out statements one by one, going on after failures, and gives the result of each. -/
def attempts (host : Host σ κ φ) (executor : Executor σ κ) (root : κ) :
    List Statement → σ → List (Except Failure Unit) × σ
  | [], state => ([], state)
  | first :: rest, state =>
    let outcome := executor.statement host root first state
    let (results, last) := attempts host executor root rest outcome.state
    (outcome.result :: results, last)

end Executor

/-- Carries out a document with the base evaluator and every block. -/
def Document.execute {σ κ φ : Type} (host : Host σ κ φ) (root : κ) (document : Document) :
    Run σ (Call κ) Unit :=
  let executor : Executor σ κ := { evaluator := .base host }
  executor.execute host root document

namespace Host

variable {σ κ φ : Type}

/-- Sets attributes one after the other. -/
def setAll (host : Host σ κ φ) (on : κ) : List (String × Value) → Run σ (Call κ) Unit
  | [] => pure ()
  | (key, value) :: rest => do
    host.set on key value
    host.setAll on rest

/-- Opens a block, sets attributes in it and closes it. -/
def fill (host : Host σ κ φ) (on : κ) (name : String) (labels : List Value)
    (attributes : List (String × Value)) : Run σ (Call κ) Unit := do
  let child ← host.start on name labels
  host.setAll child attributes
  host.finish on name labels child

end Host

end ConfigLang
