import ConfigLang.Host
/-!
A host that keeps what it is given and records every request. What it knows and what it refuses is
fixed by a plan.
-/

set_option autoImplicit false

namespace ConfigLang

namespace Recorder

/-- What the host knows, what it refuses, and what its contexts require. -/
structure Plan where
  /-- The names that every context knows. -/
  «variables» : Fields Value := []
  /-- Whether a context knows the attributes set in it. -/
  readback : Bool := false
  deniedAttributes : List String := []
  deniedBlocks : List String := []
  /-- The blocks that may be opened but not closed. -/
  deniedEnds : List String := []
  /-- The blocks that are bare contexts. -/
  bareBlocks : List String := []
  /-- For names of contexts, the attributes that must be set there. -/
  required : Fields (List String) := []

/-- A context: one that knows nothing and records nothing, or one by its number. -/
inductive Context where
  | bare
  | recorded (number : Nat)
deriving DecidableEq, Repr

structure Node where
  name : String
  path : String
  attributes : Fields Value

/-- The contexts so far, and the events in order. -/
structure State where
  nodes : Array Node
  events : Array String

/-- The functions that every recorded context knows. -/
inductive Function where
  | count
  | first
  | list
  | map
  | kinds
  | text
  | fail
deriving DecidableEq, Repr

namespace Function

def name : Function → String
  | count => "count"
  | first => "first"
  | list => "list"
  | map => "map"
  | kinds => "kinds"
  | text => "show"
  | fail => "fail"

def ofName? (name : String) : Option Function :=
  [count, first, list, map, kinds, text, fail].find? fun function => function.name == name

/-- Reads arguments as a string and a scalar, again and again. -/
def pairs? : List Value → Option (List (String × Scalar))
  | [] => some []
  | .scalar (.string key) :: .scalar value :: rest => (pairs? rest).map ((key, value) :: ·)
  | _ => none

/-- The value on some arguments, or what is wrong with them. -/
def apply (function : Function) (arguments : List Value) : Except String Value :=
  match function with
  | count => .ok (.scalar (.int (Int64.ofNat arguments.length)))
  | first =>
    match arguments.head? with
    | some value => .ok value
    | none => .error "expected at least one argument"
  | list =>
    match arguments.mapM Value.scalar? with
    | some scalars => .ok (.list scalars)
    | none => .error "expected scalars"
  | map =>
    match pairs? arguments with
    | some entries => .ok (.map (Fields.ofList entries))
    | none => .error "expected string and scalar pairs"
  | kinds => .ok (.scalar (.string (String.intercalate " " (arguments.map Value.kind))))
  | text => .ok (.scalar (.string (Value.textAll arguments)))
  | fail => .error ("failed with " ++ toString arguments.length ++ " arguments")

end Function

namespace State

/-- The root context alone. -/
def initial : State :=
  ⟨#[⟨"root", "root", []⟩], #[]⟩

/-- The context of this number. -/
def node (state : State) (number : Nat) : Node :=
  state.nodes.getD number ⟨"", "", []⟩

def record (state : State) (number : Nat) (event : String) : State :=
  { state with events := state.events.push ((state.node number).path ++ ": " ++ event) }

/-- The events are forgotten. -/
def silent (state : State) : State :=
  { state with events := #[] }

end State

def describe (on : Context) (state : State) : String :=
  match on with
  | .bare => "Bare"
  | .recorded number => "Host(" ++ (state.node number).path ++ ")"

/-- Answers as a context that knows nothing, in its own name. -/
def unknown {α : Type} (on : Context) (answer : String → Answer State α) : Answer State α :=
  fun state => answer (describe on state) state

def setAttribute (plan : Plan) (on : Context) (key : String) (value : Value) :
    Answer State Unit :=
  match on with
  | .bare => unknown on (Unknown.attr · key)
  | .recorded number => fun state =>
    let state := state.record number ("set " ++ key ++ " = " ++ value.text)
    if plan.deniedAttributes.contains key then unknown on (Unknown.attr · key) state
    else
      let nodes := state.nodes.modify number fun node =>
        { node with attributes := Fields.insert key value node.attributes }
      (.ok (), { state with nodes })

/-- The name `path` stands for the path of the context. -/
def getAttribute (plan : Plan) (on : Context) (key : String) : Answer State Value :=
  match on with
  | .bare => unknown on (Unknown.attr · key)
  | .recorded number => fun state =>
    let state := state.record number ("get " ++ key)
    let node := state.node number
    let own := if plan.readback then Fields.find? key node.attributes else none
    if key = "path" then (.ok (.scalar (.string node.path)), state)
    else
      match own <|> Fields.find? key plan.variables with
      | some value => (.ok value, state)
      | none => unknown on (Unknown.attr · key) state

def startBlock (plan : Plan) (on : Context) (name : String) (labels : List Value) :
    Answer State Context :=
  match on with
  | .bare => unknown on (Unknown.block · name)
  | .recorded number => fun state =>
    let state := state.record number ("start " ++ name ++ " [" ++ Value.textAll labels ++ "]")
    if plan.deniedBlocks.contains name then unknown on (Unknown.block · name) state
    else if plan.bareBlocks.contains name then (.ok .bare, state)
    else
      let child : Node := ⟨name, (state.node number).path ++ "/" ++ name, []⟩
      (.ok (.recorded state.nodes.size), { state with nodes := state.nodes.push child })

/-- Every attribute that is required of the context must have been set. -/
def validate (plan : Plan) (on : Context) : Answer State Unit :=
  match on with
  | .bare => Unknown.validate
  | .recorded number => fun state =>
    let state := state.record number "validate"
    let node := state.node number
    let required := (Fields.find? node.name plan.required).getD []
    match required.find? fun key => (Fields.find? key node.attributes).isNone with
    | some key => (.error ⟨describe on state, "attribute " ++ key ++ " must be set"⟩, state)
    | none => Unknown.validate state

/-- A block is closed only if its context is valid. -/
def endBlock (plan : Plan) (on : Context) (name : String) (labels : List Value)
    (child : Context) : Answer State Unit :=
  match on with
  | .bare => unknown on (Unknown.block · name)
  | .recorded number => fun state =>
    let state := state.record number
      ("end " ++ name ++ " [" ++ Value.textAll labels ++ "] " ++ describe child state)
    if plan.deniedEnds.contains name then unknown on (Unknown.block · name) state
    else
      match validate plan child state with
      | (.ok (), state) => (.ok (), state.record number ("done " ++ name))
      | (.error error, state) => (.error error, state)

def getFunction (on : Context) (name : String) : Answer State Function :=
  match on with
  | .bare => unknown on (Unknown.function · name)
  | .recorded number => fun state =>
    let state := state.record number ("function " ++ name)
    match Function.ofName? name with
    | some function => (.ok function, state)
    | none => unknown on (Unknown.function · name) state

def callFunction (function : Function) (arguments : List Value) : Answer State Value :=
  fun state =>
    let result := (function.apply arguments).mapError fun message =>
      ConfigurationError.mk (Text.quote function.name) message
    (result, state)

/-- The host of a plan. -/
def host (plan : Plan) : Host State Context Function where
  describe := describe
  setAttribute := setAttribute plan
  getAttribute := getAttribute plan
  startBlock := startBlock plan
  endBlock := endBlock plan
  getFunction := getFunction
  callFunction := callFunction
  validate := validate plan

end Recorder

end ConfigLang
