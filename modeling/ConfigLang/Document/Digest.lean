import ConfigLang.Document.Equality
/-!
What a document writes to a hash: the tags, sizes and contents of its nodes from the top down.
Equal nodes write the same data.
-/

set_option autoImplicit false

namespace ConfigLang

/-- A piece of data for a hash. -/
inductive Atom where
  | tag (number : Nat)
  | size (number : Nat)
  | word (bits : UInt64)
  | text (contents : String)
deriving DecidableEq, Hashable, Repr

namespace Scalar

def digest : Scalar → List Atom
  | null => [.tag 0]
  | bool value => [.tag 1, .word value.toUInt64]
  | int value => [.tag 2, .word value.toUInt64]
  | float value => [.tag 3, .word value.bits]
  | string value => [.tag 4, .text value]

instance : Hashable Scalar :=
  ⟨fun scalar => hash scalar.digest⟩

end Scalar

namespace Expression

mutual

def digest : Expression → List Atom
  | literal value => .tag 0 :: value.digest
  | array items => .tag 1 :: .size items.length :: digestAll items
  | object fields => .tag 2 :: .size fields.length :: digestFields fields
  | call function arguments =>
    .tag 3 :: .text function :: .size arguments.length :: digestAll arguments
  | identifier name => [.tag 4, .text name]
  | getAttr on name => .tag 5 :: digest on ++ [.text name]
  | getIndex on index => .tag 6 :: digest on ++ index.digest
  | attrSplat on => .tag 7 :: digest on
  | indexSplat on => .tag 8 :: digest on
  | unary op operand => .tag 9 :: .tag op.ctorIdx :: digest operand
  | binary op left right => .tag 10 :: .tag op.ctorIdx :: (digest left ++ digest right)

def digestAll : List Expression → List Atom
  | [] => []
  | item :: rest => digest item ++ digestAll rest

def digestFields : List (String × Expression) → List Atom
  | [] => []
  | (key, value) :: rest => .text key :: (digest value ++ digestFields rest)

end

instance : Hashable Expression :=
  ⟨fun expression => hash expression.digest⟩

end Expression

namespace Statement

mutual

def digest : Statement → List Atom
  | assign key value => .tag 0 :: .text key :: value.digest
  | block name labels body =>
    .tag 1 :: .text name :: .size labels.length :: (Expression.digestAll labels ++
      .size body.length :: digestAll body)

def digestAll : List Statement → List Atom
  | [] => []
  | statement :: rest => digest statement ++ digestAll rest

end

instance : Hashable Statement :=
  ⟨fun statement => hash statement.digest⟩

end Statement

namespace Document

def digest (document : Document) : List Atom :=
  .size document.body.length :: Statement.digestAll document.body

instance : Hashable Document :=
  ⟨fun document => hash document.digest⟩

end Document

end ConfigLang
