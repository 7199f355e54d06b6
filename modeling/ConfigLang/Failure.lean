import ConfigLang.Text.Quoted
/-!
What can go wrong while a document is carried out.
-/

set_option autoImplicit false

namespace ConfigLang

/-- A refusal by a context. The context is held as the text that showed it at that time. -/
structure ConfigurationError where
  context : String
  message : String
deriving DecidableEq, Repr

namespace ConfigurationError

/-- The refusal of a name that a context does not know. -/
def missing (context thing name : String) : ConfigurationError :=
  ⟨context, thing ++ " " ++ Text.quote name ++ " does not exist"⟩

def text (error : ConfigurationError) : String :=
  "in context of object " ++ error.context ++ ": " ++ error.message

end ConfigurationError

/-- Why an evaluation or an execution ended early. Operators and kinds go by their names. -/
inductive Failure where
  | configuration (error : ConfigurationError)
  | unsupported (kind : String)
  | nestedCollection (kind : String)
  | typeMismatch (op left right : String)
  | invalidOperand (op kind : String)
  | arithmetic (op message : String)
deriving DecidableEq, Repr

def Failure.text : Failure → String
  | configuration error => error.text
  | unsupported kind => "unsupported expression kind `" ++ kind ++ "`"
  | nestedCollection kind => "nested " ++ kind ++ " values cannot be evaluated"
  | typeMismatch op left right =>
    "operator `" ++ op ++ "` is not defined for " ++ left ++ " and " ++ right
  | invalidOperand op kind => "operator `" ++ op ++ "` is not defined for " ++ kind
  | arithmetic op message => "operator `" ++ op ++ "`: " ++ message

end ConfigLang
