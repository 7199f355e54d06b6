import ConfigLang.Run
import ConfigLang.Value
/-!
Hosts: what a document is carried out on. A host has contexts, which receive attributes and blocks
and know names and functions; it answers from a state of its own.
-/

set_option autoImplicit false

namespace ConfigLang

/-- A host with states `σ`, contexts `κ` and functions `φ`. -/
structure Host (σ κ φ : Type) where
  /-- A context as error messages show it. -/
  describe : κ → σ → String
  setAttribute : κ → String → Value → Answer σ Unit
  getAttribute : κ → String → Answer σ Value
  /-- Opens a block. The context that it answers with receives the body. -/
  startBlock : κ → String → List Value → Answer σ κ
  /-- Hands back the context of a block when its body is through. -/
  endBlock : κ → String → List Value → κ → Answer σ Unit
  getFunction : κ → String → Answer σ φ
  callFunction : φ → List Value → Answer σ Value
  /-- A check of the context by itself. -/
  validate : κ → Answer σ Unit

/-- What an evaluation asks a context for. -/
inductive Query (κ : Type) where
  | attr (on : κ) (name : String)
  | function (on : κ) (name : String)
deriving DecidableEq, Repr

/-- What an execution asks of contexts. A block that is started comes with the context that was
answered, if any. -/
inductive Call (κ : Type) where
  | query (query : Query κ)
  | set (on : κ) (key : String) (value : Value)
  | start (on : κ) (name : String) (labels : List Value) (child : Option κ)
  | finish (on : κ) (name : String) (labels : List Value) (child : κ)
deriving DecidableEq, Repr

namespace Host

variable {σ κ φ : Type} (host : Host σ κ φ)

def attr (on : κ) (name : String) : Run σ (Query κ) Value :=
  .call (host.getAttribute on name) fun _ => .attr on name

def function (on : κ) (name : String) : Run σ (Query κ) φ :=
  .call (host.getFunction on name) fun _ => .function on name

def apply (function : φ) (arguments : List Value) : Run σ (Query κ) Value :=
  .take (host.callFunction function arguments)

/-- Fails with a message in the name of a context. -/
def refuse {α : Type} (on : κ) (message : String) : Run σ (Query κ) α := do
  let context ← Run.gets (host.describe on)
  Run.fail (.configuration ⟨context, message⟩)

def set (on : κ) (key : String) (value : Value) : Run σ (Call κ) Unit :=
  .call (host.setAttribute on key value) fun _ => .set on key value

def start (on : κ) (name : String) (labels : List Value) : Run σ (Call κ) κ :=
  .call (host.startBlock on name labels) fun answer => .start on name labels answer.toOption

def finish (on : κ) (name : String) (labels : List Value) (child : κ) : Run σ (Call κ) Unit :=
  .call (host.endBlock on name labels child) fun _ => .finish on name labels child

end Host

/-! ### The answers of a context that knows nothing -/

namespace Unknown

variable {σ α : Type}

def attr (context name : String) : Answer σ α :=
  fun state => (.error (.missing context "attribute" name), state)

def block (context name : String) : Answer σ α :=
  fun state => (.error (.missing context "block" name), state)

def function (context name : String) : Answer σ α :=
  fun state => (.error (.missing context "function" name), state)

/-- There is nothing to check. -/
def validate : Answer σ Unit :=
  fun state => (.ok (), state)

end Unknown

end ConfigLang
