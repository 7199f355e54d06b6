import ConfigLang.Token
/-!
What can be wrong with the text of a document, and how it is reported.
-/

set_option autoImplicit false

namespace ConfigLang

/-- The code of a report: `L` for characters, `P` for the order of the tokens. -/
inductive Code where
  | unexpectedCharacter
  | unterminatedString
  | invalidEscape
  | integerOutOfRange
  | template
  | unterminatedComment
  | unexpectedToken
  | missingToken
  | nestedTooDeep
deriving DecidableEq, Repr

namespace Code

def text : Code → String
  | unexpectedCharacter => "L001"
  | unterminatedString => "L002"
  | invalidEscape => "L003"
  | integerOutOfRange => "L004"
  | template => "L005"
  | unterminatedComment => "L006"
  | unexpectedToken => "P001"
  | missingToken => "P002"
  | nestedTooDeep => "P003"

def all : List Code :=
  [unexpectedCharacter, unterminatedString, invalidEscape, integerOutOfRange, template,
    unterminatedComment, unexpectedToken, missingToken, nestedTooDeep]

def ofText? (text : String) : Option Code :=
  all.find? fun code => code.text == text

end Code

/-- What the grammar was looking for when no single token would have done. -/
inductive Wanted where
  | endOfStatement
  | subscript
  | expression
  | objectKey
  | objectAssignment
deriving DecidableEq, Repr

def Wanted.text : Wanted → String
  | endOfStatement => "newline after statement"
  | subscript => "int or string index, or `*`"
  | expression => "expression"
  | objectKey => "object key"
  | objectAssignment => "`=` or `:`"

/-- Why a text is no document. -/
inductive Cause where
  | unexpectedCharacter (char : Char)
  | unterminatedString
  | invalidEscape (char : Char)
  | integerOutOfRange (digits : String)
  | template (char : Char)
  | unterminatedComment
  | unexpected (wanted : Wanted) (found : Kind)
  | noIdentifier
  | missing (wanted found : Kind)
  | nestedTooDeep
deriving DecidableEq, Repr

namespace Cause

def code : Cause → Code
  | unexpectedCharacter _ => .unexpectedCharacter
  | unterminatedString => .unterminatedString
  | invalidEscape _ => .invalidEscape
  | integerOutOfRange _ => .integerOutOfRange
  | template _ => .template
  | unterminatedComment => .unterminatedComment
  | unexpected _ _ | noIdentifier => .unexpectedToken
  | missing _ _ => .missingToken
  | nestedTooDeep => .nestedTooDeep

def message : Cause → String
  | unexpectedCharacter char => "unexpected character `" ++ String.singleton char ++ "`"
  | unterminatedString => "unterminated string literal"
  | invalidEscape char => "invalid escape sequence `\\" ++ String.singleton char ++ "`"
  | integerOutOfRange digits => "integer literal `" ++ digits ++ "` is out of range"
  | template char => "template sequence `" ++ String.ofList [char, '\x7b'] ++ "` is not supported"
  | unterminatedComment => "unterminated block comment"
  | unexpected wanted found => "expected " ++ wanted.text ++ ", found " ++ found.text
  | noIdentifier => "expected identifier"
  | missing wanted found => "expected " ++ wanted.text ++ ", found " ++ found.text
  | nestedTooDeep => "expression or block nested too deeply"

end Cause

/-- A fault of the text and the place that it is reported at. -/
structure Fault where
  place : Position
  cause : Cause
deriving DecidableEq, Repr

/-- A fault in the form that is shown. -/
structure Diagnostic where
  code : Code
  place : Position
  message : String
deriving DecidableEq, Repr

namespace Diagnostic

def ofFault (fault : Fault) : Diagnostic :=
  ⟨fault.cause.code, fault.place, fault.cause.message⟩

/-- One line: code, place and message. -/
def text (diagnostic : Diagnostic) : String :=
  "[" ++ diagnostic.code.text ++ "] " ++ toString diagnostic.place.line ++ ":" ++
    toString diagnostic.place.column ++ " \u2014 " ++ diagnostic.message

/-- Several diagnostics, each on a line of its own. -/
def textAll (diagnostics : List Diagnostic) : String :=
  String.intercalate "\n" (diagnostics.map text)

end Diagnostic

end ConfigLang
