import ConfigLang.Failure
/-!
Computations that make calls. A run threads a state, lists its calls in order, and stops at the
first failure; the calls made until then stay listed.
-/

set_option autoImplicit false

namespace ConfigLang

/-- What a run came to. -/
structure Outcome (σ ε α : Type) where
  result : Except Failure α
  state : σ
  calls : List ε

/-- A computation on states `σ` that makes calls `ε`. -/
def Run (σ ε α : Type) : Type :=
  σ → Outcome σ ε α

/-- How a host answers: from its state, with a value or a refusal, and with the state after. -/
abbrev Answer (σ α : Type) : Type :=
  σ → Except ConfigurationError α × σ

namespace Run

variable {σ ε ε' α β : Type}

protected def pure (value : α) : Run σ ε α :=
  fun state => ⟨.ok value, state, []⟩

protected def bind (first : Run σ ε α) (next : α → Run σ ε β) : Run σ ε β :=
  fun state =>
    let outcome := first state
    match outcome.result with
    | .ok value =>
      let last := next value outcome.state
      ⟨last.result, last.state, outcome.calls ++ last.calls⟩
    | .error failure => ⟨.error failure, outcome.state, outcome.calls⟩

instance : Monad (Run σ ε) where
  pure := Run.pure
  bind := Run.bind

def fail (failure : Failure) : Run σ ε α :=
  fun state => ⟨.error failure, state, []⟩

def ofExcept : Except Failure α → Run σ ε α
  | .ok value => Run.pure value
  | .error failure => fail failure

/-- A value read off the state. -/
def gets (read : σ → α) : Run σ ε α :=
  fun state => ⟨.ok (read state), state, []⟩

/-- Takes an answer of the host without listing a call. -/
def take (answer : Answer σ α) : Run σ ε α :=
  fun state =>
    let (result, after) := answer state
    ⟨result.mapError .configuration, after, []⟩

/-- Takes an answer of the host, and lists the call with its result. -/
def call (answer : Answer σ α) (event : Except ConfigurationError α → ε) : Run σ ε α :=
  fun state =>
    let (result, after) := answer state
    ⟨result.mapError .configuration, after, [event result]⟩

/-- The same run with its calls seen as calls of another type. -/
def relabel (label : ε → ε') (run : Run σ ε α) : Run σ ε' α :=
  fun state =>
    let outcome := run state
    ⟨outcome.result, outcome.state, outcome.calls.map label⟩

theorem bind_of_ok (first : Run σ ε α) (next : α → Run σ ε β) (state : σ) (value : α)
    (success : (first state).result = .ok value) :
    (first >>= next) state =
      ⟨(next value (first state).state).result, (next value (first state).state).state,
        (first state).calls ++ (next value (first state).state).calls⟩ := by
  show Run.bind first next state = _
  simp only [Run.bind, success]

theorem bind_of_error (first : Run σ ε α) (next : α → Run σ ε β) (state : σ) (failure : Failure)
    (failed : (first state).result = .error failure) :
    (first >>= next) state = ⟨.error failure, (first state).state, (first state).calls⟩ := by
  show Run.bind first next state = _
  simp only [Run.bind, failed]

end Run

end ConfigLang
