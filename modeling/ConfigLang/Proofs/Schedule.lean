import ConfigLang.Execution
import Mathlib.Data.List.Forall2
/-!
The order of calls. What a document asks of contexts is listed from its statements alone. The calls
that a run makes are that list from its beginning on, all of it if the run comes to its end.
-/

set_option autoImplicit false

namespace ConfigLang

variable {σ κ φ : Type}

/-- What a document asks a context for. A context goes by where it comes from: it is the root, or
what the start call at a position of the list is answered with. -/
inductive Request where
  | set (on : Option Nat) (key : String)
  | start (on : Option Nat) (name : String)
  | finish (on : Option Nat) (name : String) (opening : Nat)
deriving DecidableEq, Repr

namespace Selection

mutual

/-- The requests of a statement in a context, from a position of the list on. -/
def requests (selection : Selection) (on : Option Nat) (position : Nat) :
    Statement → List Request
  | .assign key _ => [.set on key]
  | .block name _ body =>
    if selection.allows name then
      [.start on name] ++ (requestsAll selection (some position) (position + 1) body ++
        [.finish on name position])
    else []

/-- The requests of statements, in the order of the document. -/
def requestsAll (selection : Selection) (on : Option Nat) (position : Nat) :
    List Statement → List Request
  | [] => []
  | first :: rest =>
    requests selection on position first ++
      requestsAll selection on (position + (requests selection on position first).length) rest

end

/-- All that a document asks for when it is carried out in a root context. -/
def schedule (selection : Selection) (document : Document) : List Request :=
  selection.requestsAll none 0 document.body

end Selection

namespace Call

/-- Whether a call is more than a question. -/
def isEvent : Call κ → Bool
  | .query _ => false
  | _ => true

/-- The context that a start call was answered with. -/
def child? : Call κ → Option κ
  | .start _ _ _ child => child
  | _ => none

end Call

/-- The calls that set, start or finish. -/
def events (calls : List (Call κ)) : List (Call κ) :=
  calls.filter Call.isEvent

/-- The context that comes from a place of the list, after these calls. -/
def origin (root : κ) (made : List (Call κ)) : Option Nat → Option κ
  | none => some root
  | some position => made[position]?.bind Call.child?

/-- A call that was made does what was asked for. To finish a block takes the labels that it was
started with, the context that it was started in, and the context that was the answer. -/
inductive Fulfils (root : κ) (made : List (Call κ)) : Call κ → Request → Prop
  | set {on : κ} {place : Option Nat} {key : String} {value : Value}
      (here : origin root made place = some on) :
      Fulfils root made (.set on key value) (.set place key)
  | start {on : κ} {place : Option Nat} {name : String} {labels : List Value} {child : Option κ}
      (here : origin root made place = some on) :
      Fulfils root made (.start on name labels child) (.start place name)
  | finish {on child : κ} {place : Option Nat} {name : String} {labels : List Value}
      {opening : Nat} (here : origin root made place = some on)
      (started : made[opening]? = some (.start on name labels (some child))) :
      Fulfils root made (.finish on name labels child) (.finish place name opening)

@[simp] theorem events_append (first second : List (Call κ)) :
    events (first ++ second) = events first ++ events second :=
  List.filter_append ..

theorem events_relabel_query {α : Type} (run : Run σ (Query κ) α) (state : σ) :
    events (run.relabel .query state).calls = [] := by
  change ((run state).calls.map Call.query).filter Call.isEvent = []
  rw [List.filter_map, List.map_eq_nil_iff, List.filter_eq_nil_iff]
  intro query _ event
  cases event

/-- Calls that are made later change nothing about where a context comes from. -/
theorem origin_append {root on : κ} {made : List (Call κ)} {place : Option Nat}
    (here : origin root made place = some on) (later : List (Call κ)) :
    origin root (made ++ later) place = some on := by
  cases place with
  | none => exact here
  | some position =>
      obtain ⟨call, found, child⟩ := Option.bind_eq_some_iff.mp here
      have inside := (List.getElem?_eq_some_iff.mp found).1
      change (made ++ later)[position]?.bind Call.child? = some on
      rw [List.getElem?_append_left inside, found]
      exact child

theorem origin_start (root on child : κ) (made : List (Call κ)) (name : String)
    (labels : List Value) :
    origin root (made ++ [.start on name labels (some child)]) (some made.length) = some child := by
  change (made ++ _)[made.length]?.bind Call.child? = some child
  rw [List.getElem?_concat_length]
  rfl

/-! ### Runs beside requests -/

/-- How many requests are met by the time of a result: all, or if it is a failure the first of
them. -/
def Meets {α : Type} (result : Except Failure α) (met asked : List Request) : Prop :=
  match result with
  | .ok _ => met = asked
  | .error _ => met <+: asked

/-- After the events so far, a run makes those that were asked for, one after the other. -/
def Follows {α : Type} (root : κ) (made : List (Call κ)) (asked : List Request)
    (outcome : Outcome σ (Call κ) α) : Prop :=
  ∃ met, (∀ later, List.Forall₂ (Fulfils root (made ++ (events outcome.calls ++ later)))
      (events outcome.calls) met) ∧ Meets outcome.result met asked

namespace Follows

variable {α β : Type} {root : κ} {made : List (Call κ)} {asked others : List Request}

theorem length_eq {outcome : Outcome σ (Call κ) α} (follows : Follows root made asked outcome)
    {value : α} (success : outcome.result = .ok value) :
    (events outcome.calls).length = asked.length := by
  obtain ⟨met, fulfilled, whole⟩ := follows
  rw [success] at whole
  rw [(fulfilled []).length_eq, show met = asked from whole]

/-- A run without events does nothing that was not asked for. -/
theorem of_silent {outcome : Outcome σ (Call κ) α} (silent : events outcome.calls = []) :
    Follows root made [] outcome := by
  refine ⟨[], fun later => ?_, ?_⟩
  · rw [silent]
    exact .nil
  · cases outcome.result with
    | ok value => rfl
    | error failure => exact List.nil_prefix

/-- A run with a single event does what was asked for, also where it is refused. -/
theorem of_single {outcome : Outcome σ (Call κ) α} {call : Call κ} {request : Request}
    (single : events outcome.calls = [call])
    (fulfils : ∀ later, Fulfils root (made ++ later) call request) :
    Follows root made [request] outcome := by
  refine ⟨[request], fun later => ?_, ?_⟩
  · rw [single]
    exact .cons (fulfils _) .nil
  · cases outcome.result with
    | ok value => rfl
    | error failure => exact List.prefix_rfl

/-- What was asked for second is done after what was asked for first, or not at all. -/
theorem bind {first : Run σ (Call κ) α} {next : α → Run σ (Call κ) β} {state : σ}
    (before : Follows root made asked (first state))
    (behind : ∀ value, (first state).result = .ok value →
      Follows root (made ++ events (first state).calls) others (next value (first state).state)) :
    Follows root made (asked ++ others) ((first >>= next) state) := by
  cases came : (first state).result with
  | ok value =>
      obtain ⟨met, fulfilled, whole⟩ := before
      obtain ⟨more, follow, ends⟩ := behind value came
      rw [came] at whole
      obtain rfl : met = asked := whole
      rw [Run.bind_of_ok first next state value came]
      refine ⟨met ++ more, fun later => ?_, ?_⟩
      · rw [events_append, List.append_assoc]
        refine List.rel_append (fulfilled _) ?_
        have rest := follow later
        rwa [List.append_assoc] at rest
      · dsimp only
        cases done : (next value (first state).state).result with
        | ok result =>
            rw [done] at ends
            exact congrArg (met ++ ·) ends
        | error failure =>
            rw [done] at ends
            exact (List.prefix_append_right_inj met).mpr ends
  | error failure =>
      obtain ⟨met, fulfilled, started⟩ := before
      rw [came] at started
      rw [Run.bind_of_error first next state failure came]
      exact ⟨met, fulfilled, List.IsPrefix.trans started (List.prefix_append asked others)⟩

end Follows

namespace Executor

variable {root on : κ} {made : List (Call κ)} {place : Option Nat}

theorem set_follows (host : Host σ κ φ) (here : origin root made place = some on) (key : String)
    (value : Value) (state : σ) :
    Follows root made [.set place key] (host.set on key value state) :=
  .of_single rfl fun later => .set (origin_append here later)

theorem start_follows (host : Host σ κ φ) (here : origin root made place = some on) (name : String)
    (labels : List Value) (state : σ) :
    Follows root made [.start place name] (host.start on name labels state) :=
  .of_single rfl fun later => .start (origin_append here later)

/-- The event of a start call that is answered tells the answer. -/
theorem events_start (host : Host σ κ φ) (on : κ) (name : String) (labels : List Value) (state : σ)
    {child : κ} (answered : (host.start on name labels state).result = .ok child) :
    events (host.start on name labels state).calls = [.start on name labels (some child)] := by
  change ((host.startBlock on name labels state).1.mapError Failure.configuration) = .ok child
    at answered
  change [Call.start on name labels (host.startBlock on name labels state).1.toOption] = _
  cases answer : (host.startBlock on name labels state).1 with
  | ok context =>
      rw [answer] at answered
      cases answered
      rfl
  | error refusal =>
      rw [answer] at answered
      cases answered

theorem finish_follows (host : Host σ κ φ) (here : origin root made place = some on)
    (name : String) (labels : List Value) {child : κ} {opening : Nat}
    (started : made[opening]? = some (.start on name labels (some child))) (state : σ) :
    Follows root made [.finish place name opening] (host.finish on name labels child state) := by
  refine .of_single rfl fun later => .finish (origin_append here later) ?_
  rw [List.getElem?_append_left (List.getElem?_eq_some_iff.mp started).1, started]

/-- The block is started, its body goes to the answer, and then the block is finished. -/
theorem block_follows (host : Host σ κ φ) (executor : Executor σ κ)
    (here : origin root made place = some on) (name : String) (labels : List Expression)
    (body : List Statement) (selected : executor.selection.allows name = true)
    (inner : ∀ {child : κ} {made : List (Call κ)} {place : Option Nat} (state : σ),
      origin root made place = some child →
      Follows root made (executor.selection.requestsAll place made.length body)
        (executor.statements host child body state)) (state : σ) :
    Follows root made (executor.selection.requests place made.length (.block name labels body))
      (executor.statement host on (.block name labels body) state) := by
  rw [statement, if_pos selected, Selection.requests, if_pos selected, ← List.nil_append ([_] ++ _)]
  refine .bind (.of_silent (events_relabel_query _ state)) fun values _ => ?_
  rw [show events (executor.labels on labels state).calls = [] from events_relabel_query _ state,
    List.append_nil]
  refine .bind (start_follows host here name values _) fun child answered => ?_
  rw [events_start host on name values _ answered]
  have born := origin_start root on child made name values
  have length : (made ++ [Call.start on name values (some child)]).length = made.length + 1 :=
    List.length_append
  refine .bind ?_ fun _ _ => ?_
  · rw [← length]
    exact inner _ born
  · refine finish_follows host ?_ name values ?_ _
    · rw [List.append_assoc]
      exact origin_append here _
    · rw [List.append_assoc, List.getElem?_append_right (Nat.le_refl _), Nat.sub_self]
      rfl

mutual

/-- A statement does what it asks for. -/
theorem statement_follows (host : Host σ κ φ) (executor : Executor σ κ) (root : κ) :
    ∀ (first : Statement) {on : κ} {made : List (Call κ)} {place : Option Nat} (state : σ),
      origin root made place = some on →
      Follows root made (executor.selection.requests place made.length first)
        (executor.statement host on first state)
  | .assign key expression, on, made, place, state, here => by
      rw [statement, Selection.requests, ← List.nil_append [_]]
      refine .bind (.of_silent (events_relabel_query _ state)) fun value _ => ?_
      rw [show events (executor.value on expression state).calls = [] from
        events_relabel_query _ state, List.append_nil]
      exact set_follows host here key value _
  | .block name labels body, on, made, place, state, here => by
      by_cases selected : executor.selection.allows name = true
      · exact block_follows host executor here name labels body selected
          (statements_follow host executor root body) state
      · rw [statement, if_neg selected, Selection.requests, if_neg selected]
        exact .of_silent rfl

/-- Statements do what they ask for, one after the other. -/
theorem statements_follow (host : Host σ κ φ) (executor : Executor σ κ) (root : κ) :
    ∀ (body : List Statement) {on : κ} {made : List (Call κ)} {place : Option Nat} (state : σ),
      origin root made place = some on →
      Follows root made (executor.selection.requestsAll place made.length body)
        (executor.statements host on body state)
  | [], on, made, place, state, here => by
      rw [statements, Selection.requestsAll]
      exact .of_silent rfl
  | first :: rest, on, made, place, state, here => by
      have before := statement_follows host executor root first state here
      rw [statements, Selection.requestsAll]
      refine .bind before fun _ done => ?_
      have length := before.length_eq done
      have others := statements_follow host executor root rest
        (executor.statement host on first state).state (origin_append here
          (events (executor.statement host on first state).calls))
      rw [List.length_append, length] at others
      exact others

end

/-- The events of a run are what the document asks for, in the order of the document: all of it if
the run comes to its end, and otherwise what comes before the failure. Each goes to the context that
is open at its place, and each block is finished with the labels that it was started with and with
the context that was the answer, after the whole body has gone to it. -/
theorem execute_follows_schedule (host : Host σ κ φ) (executor : Executor σ κ) (root : κ)
    (document : Document) (state : σ) :
    ∃ met, List.Forall₂
        (Fulfils root (events (executor.execute host root document state).calls))
        (events (executor.execute host root document state).calls) met ∧
      Meets (executor.execute host root document state).result met
        (executor.selection.schedule document) := by
  have follows : Follows root [] (executor.selection.requestsAll none 0 document.body)
      (executor.statements host root document.body state) :=
    statements_follow host executor root document.body state rfl
  obtain ⟨met, fulfilled, ends⟩ := follows
  refine ⟨met, ?_, ends⟩
  have whole := fulfilled []
  rwa [List.nil_append, List.append_nil] at whole

end Executor

end ConfigLang
