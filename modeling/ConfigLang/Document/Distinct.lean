import Std.Data.HashMap
import ConfigLang.Document.Digest
/-!
The first occurrence of each item of a list, found by a hash table.
-/

set_option autoImplicit false

namespace ConfigLang

variable {α : Type} [BEq α] [Hashable α]

/-- Goes through the items from a number on. The table holds the number of each item so far. -/
def firstsFrom (number : Nat) (table : Std.HashMap α Nat) : List α → List Nat
  | [] => []
  | item :: rest =>
    match table[item]? with
    | some first => first :: firstsFrom (number + 1) table rest
    | none => number :: firstsFrom (number + 1) (table.insert item number) rest

/-- For each item the number of the first item equal to it. -/
def firsts (items : List α) : List Nat :=
  firstsFrom 0 ∅ items

end ConfigLang
