import ConfigLang.Text.Printable
/-!
Texts in double quotes on one line. Every character that cannot be shown is written as an escape.
-/

set_option autoImplicit false

namespace ConfigLang.Text

/-- The number in lower-case hexadecimal digits, without padding. -/
def hexadecimal (number : Nat) : List Char :=
  Nat.toDigits 16 number

/-- One character inside a quoted text. -/
def escape (char : Char) : List Char :=
  match char with
  | '"' => ['\\', '"']
  | '\\' => ['\\', '\\']
  | '\n' => ['\\', 'n']
  | '\r' => ['\\', 'r']
  | '\t' => ['\\', 't']
  | '\x00' => ['\\', '0']
  | char =>
    if printable char then [char]
    else ['\\', 'u', '\x7b'] ++ hexadecimal char.toNat ++ ['\x7d']

/-- The characters of a text in double quotes. -/
def quoteChars (chars : List Char) : List Char :=
  '"' :: chars.flatMap escape ++ ['"']

/-- A text in double quotes. -/
def quote (text : String) : String :=
  String.ofList (quoteChars text.toList)

end ConfigLang.Text
