import ConfigLang.Fields
import ConfigLang.Scalar
/-!
Values: what expressions evaluate to. Collections hold scalars only.
-/

set_option autoImplicit false

namespace ConfigLang

inductive Value where
  | scalar (value : Scalar)
  | list (items : List Scalar)
  | map (entries : Fields Scalar)
deriving DecidableEq, Repr

namespace Value

/-- The name of the kind, as messages give it. -/
def kind : Value → String
  | scalar value => value.kind
  | list _ => "list"
  | map _ => "map"

/-- Whether two values are the same. The order of a map does not count. -/
def same : Value → Value → Bool
  | scalar left, scalar right => left.same right
  | list left, list right => left = right
  | map left, map right => left.sameEntries right
  | _, _ => false

def isNull (value : Value) : Bool :=
  value = scalar .null

def scalar? : Value → Option Scalar
  | scalar value => some value
  | _ => none

def bool? : Value → Option Bool
  | scalar (.bool value) => some value
  | _ => none

def int? : Value → Option Int64
  | scalar (.int value) => some value
  | _ => none

/-- The number of a float. An integer is none. -/
def float? : Value → Option Binary64
  | scalar (.float value) => some value
  | _ => none

def string? : Value → Option String
  | scalar (.string value) => some value
  | _ => none

def list? : Value → Option (List Scalar)
  | list items => some items
  | _ => none

def map? : Value → Option (Fields Scalar)
  | map entries => some entries
  | _ => none

/-- The scalar, or the collection as it is. -/
def toScalar : Value → Except Value Scalar
  | scalar value => .ok value
  | value => .error value

/-- The written form. -/
def text : Value → String
  | scalar value => value.text
  | list items => "[" ++ String.intercalate ", " (items.map Scalar.text) ++ "]"
  | map entries =>
    let shown := entries.map fun (key, value) => Text.quote key ++ ": " ++ value.text
    "\x7b" ++ String.intercalate ", " shown ++ "\x7d"

/-- The written forms of several values, with a blank between two. -/
def textAll (values : List Value) : String :=
  String.intercalate " " (values.map text)

end Value

end ConfigLang
