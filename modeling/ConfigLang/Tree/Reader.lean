import ConfigLang.Fault
import ConfigLang.Tree
/-!
Readers of token lists. A reader takes tokens from the front, and leaves the rest both when it is
done and when it fails. The end of the list reads as an end token, as often as it is taken.
-/

set_option autoImplicit false

namespace ConfigLang

/-- The outcome of a reader, with the tokens it left. -/
inductive Reply (α : Type) where
  | done (value : α) (rest : List Token)
  | failed (fault : Fault) (rest : List Token)

/-- A reader of token lists that end at a place. -/
def Reader (α : Type) : Type :=
  Position → List Token → Reply α

namespace Reader

variable {α β : Type}

protected def pure (value : α) : Reader α :=
  fun _ tokens => .done value tokens

protected def bind (first : Reader α) (next : α → Reader β) : Reader β :=
  fun stop tokens =>
    match first stop tokens with
    | .done value rest => next value stop rest
    | .failed fault rest => .failed fault rest

instance : Monad Reader where
  pure := Reader.pure
  bind := Reader.bind

theorem bind_eq_done_iff (first : Reader α) (next : α → Reader β) (stop : Position)
    (tokens rest : List Token) (value : β) :
    (first >>= next) stop tokens = .done value rest ↔
      ∃ middle left, first stop tokens = .done middle left ∧
        next middle stop left = .done value rest := by
  change Reader.bind first next stop tokens = _ ↔ _
  unfold Reader.bind
  cases first stop tokens with
  | done middle left =>
    constructor
    · intro h
      exact ⟨middle, left, rfl, h⟩
    · rintro ⟨_, _, same, h⟩
      cases same
      exact h
  | failed fault left => simp

@[simp] theorem pure_eq (value : α) (stop : Position) (tokens : List Token) :
    (pure value : Reader α) stop tokens = .done value tokens := rfl

/-- The token ahead. -/
def peek : Reader Token :=
  fun stop tokens => .done (tokens.head?.getD ⟨.eof, stop⟩) tokens

/-- The kind of the token after the one ahead. -/
def peekSecond : Reader (Option Kind) :=
  fun _ tokens => .done (tokens.tail.head?.map Token.kind) tokens

/-- Takes the token ahead. -/
def advance : Reader Token :=
  fun stop tokens => .done (tokens.head?.getD ⟨.eof, stop⟩) tokens.tail

/-- Fails at a place. -/
def failAt (place : Position) (cause : Cause) : Reader α :=
  fun _ tokens => .failed ⟨place, cause⟩ tokens

/-- Fails at the token ahead, with a cause that may tell its kind. -/
def failWith (cause : Kind → Cause) : Reader α := do
  let ahead ← peek
  failAt ahead.place (cause ahead.kind)

def unexpected (wanted : Wanted) : Reader α :=
  failWith (.unexpected wanted)

def tooDeep : Reader α :=
  failWith fun _ => .nestedTooDeep

/-- Whether the token ahead is of this kind. -/
def sees (kind : Kind) : Reader Bool := do
  return (← peek).kind = kind

/-- Takes a token of this kind if it is the one ahead. -/
def accept (kind : Kind) : Reader Bool := do
  if ← sees kind then
    let _ ← advance
    return true
  else return false

/-- Takes a token of this kind, which must be the one ahead. -/
def expect (kind : Kind) : Reader Token := do
  if ← sees kind then advance else failWith (.missing kind)

/-- Runs a reader that repeats itself as long as its list of tokens lasts. The list has one token
more than there are ahead, and each repetition takes a token, so the list is never what ends it. -/
def repeating (attempt : List Token → Reader α) : Reader α :=
  fun stop tokens => attempt (⟨.eof, stop⟩ :: tokens) stop tokens

/-- The line feeds ahead as one production, or nothing. -/
def newLines : Reader (List Tree) :=
  fun _ tokens =>
    match tokens.takeWhile (·.kind = .newline) with
    | [] => .done [] tokens
    | first :: rest =>
      .done [.node .newLines first.place.line ((first :: rest).map .leaf)]
        (tokens.dropWhile (·.kind = .newline))

/-- A production that is one token. -/
def single (rule : Rule) : Reader Tree := do
  let token ← advance
  return .node rule token.place.line [.leaf token]

/-- A name. The token ahead is taken also where it is none. -/
def identifier : Reader Tree := do
  let token ← advance
  match token.kind with
  | .ident _ => return .node .identifier token.place.line [.leaf token]
  | _ => failAt token.place .noIdentifier

end Reader

end ConfigLang
