import ConfigLang.Document.Part
import ConfigLang.Token.Scan
import ConfigLang.Tree.Statement
/-!
Reading a document from its text.
-/

set_option autoImplicit false

namespace ConfigLang

/-- Why a text is no document. A malformed tree would be a defect of the grammar. -/
inductive ParseError where
  | faults (faults : List Fault)
  | malformed (malformed : Malformed)

namespace ParseError

/-- How a malformed tree is reported when it comes from a text. -/
def internal (report : String) : String :=
  "internal lowering failure: " ++ report

end ParseError

namespace Document

/-- The document that a tree stands for. -/
def ofTree (tree : Tree) : Except Malformed Document :=
  match Part.ofTree tree with
  | .ok (.document document) => .ok document
  | .ok part => .error ⟨.start, 1, .noDocument part⟩
  | .error malformed => .error malformed

/-- The document of a text, or everything that is wrong with it. -/
def parse (text : String) : Except ParseError Document := do
  let tokens ← (Token.ofText text).mapError .faults
  let tree ← (Tree.ofTokens tokens).mapError .faults
  (ofTree tree).mapError .malformed

end Document

end ConfigLang
