/-!
Places in a text: the line, and the column in bytes of the UTF-8 encoding, both counted from one.
-/

set_option autoImplicit false

namespace ConfigLang

structure Position where
  line : Nat
  column : Nat
deriving DecidableEq, Repr

namespace Position

/-- Where every text begins. -/
def start : Position := ⟨1, 1⟩

/-- The place after one character. A line feed opens the next line, and every other character is
as wide as its encoding. -/
def past (place : Position) (char : Char) : Position :=
  if char = '\n' then ⟨place.line + 1, 1⟩ else ⟨place.line, place.column + char.utf8Size⟩

/-- The place after a run of characters. -/
def pastAll (place : Position) (chars : List Char) : Position :=
  chars.foldl past place

@[simp] theorem past_newline (place : Position) : place.past '\n' = ⟨place.line + 1, 1⟩ := rfl

theorem past_of_ne (place : Position) (char : Char) (inline : char ≠ '\n') :
    place.past char = ⟨place.line, place.column + char.utf8Size⟩ := by
  simp only [past, inline, ↓reduceIte]

@[simp] theorem pastAll_nil (place : Position) : place.pastAll [] = place := rfl

@[simp] theorem pastAll_cons (place : Position) (char : Char) (rest : List Char) :
    place.pastAll (char :: rest) = (place.past char).pastAll rest := rfl

@[simp] theorem pastAll_append (place : Position) (first second : List Char) :
    place.pastAll (first ++ second) = (place.pastAll first).pastAll second :=
  List.foldl_append

end Position

end ConfigLang
