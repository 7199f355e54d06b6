import ConfigLang.Document.Layout
import Mathlib.Data.List.Basic
/-!
What documents are printed with: a few marks, names without blanks, and quoted texts. Every piece of
a layout is one of these, however the layout breaks into lines, so that all of its characters can be
shown.
-/

set_option autoImplicit false

namespace ConfigLang

/-! ### Characters -/

/-- A character that can be seen, and that does not begin or end a quoted text. -/
def Text.isSolid (char : Char) : Bool :=
  0x21 ≤ char.toNat && char.toNat < 0x7F && char ≠ '"'

namespace Text

theorem printable_of_ascii {char : Char} (first : 0x20 ≤ char.toNat) (last : char.toNat < 0x7F) :
    printable char = true := by
  rw [printable]
  simp only [if_pos last, decide_eq_true first]

theorem printable_of_isSolid {char : Char} (solid : isSolid char = true) :
    printable char = true := by
  simp only [isSolid, Bool.and_eq_true, decide_eq_true_eq] at solid
  exact printable_of_ascii (Nat.le_of_succ_le solid.1.1) solid.1.2

theorem isSolid_of_isDigit {char : Char} (digit : char.isDigit = true) : isSolid char = true := by
  obtain ⟨first, last⟩ := Char.isDigit_iff_toNat.mp digit
  have zero : '0'.toNat = 48 := rfl
  have nine : '9'.toNat = 57 := rfl
  simp only [isSolid, Bool.and_eq_true, decide_eq_true_eq]
  refine ⟨⟨by omega, by omega⟩, ?_⟩
  rintro rfl
  cases digit

/-- The digits of a number are those below its base. -/
theorem mem_toDigits {base number : Nat} {char : Char} (bases : 1 < base)
    (member : char ∈ Nat.toDigits base number) : ∃ digit < base, char = digit.digitChar := by
  induction number using Nat.strongRecOn with
  | ind number ih =>
      rw [Nat.toDigits_eq_if bases] at member
      split at member
      next small => exact ⟨number, small, List.mem_singleton.mp member⟩
      next large =>
        rcases List.mem_append.mp member with front | last
        · exact ih (number / base) (Nat.div_lt_self (by omega) bases) front
        · exact ⟨number % base, Nat.mod_lt _ (by omega), List.mem_singleton.mp last⟩

/-- Neither braces nor quotes, blanks nor backslashes are digits. -/
theorem isSolid_of_mem_hexadecimal {number : Nat} {char : Char}
    (member : char ∈ hexadecimal number) : isSolid char = true ∧ char ≠ '\\' ∧ char ≠ '\x7d' := by
  obtain ⟨digit, small, rfl⟩ := mem_toDigits (by decide) member
  have each : ∀ digit < 16, isSolid digit.digitChar = true ∧ digit.digitChar ≠ '\\' ∧
      digit.digitChar ≠ '\x7d' := by
    decide
  exact each digit small

/-- The letters behind a backslash, with the characters that they stand for. -/
def letters : List (Char × Char) :=
  [('"', '"'), ('\\', '\\'), ('n', '\n'), ('r', '\r'), ('t', '\t'), ('0', '\x00')]

/-- How a character is written in quotes: as a letter behind a backslash, as itself or by its
number. -/
inductive Escapes : Char → List Char → Prop
  | letter {char letter : Char} (known : (letter, char) ∈ letters) :
      Escapes char ['\\', letter]
  | plain {char : Char} (shown : printable char = true) (inner : char ≠ '"') (other : char ≠ '\\') :
      Escapes char [char]
  | number {char : Char} :
      Escapes char ('\\' :: 'u' :: '\x7b' :: (hexadecimal char.toNat ++ ['\x7d']))

theorem escapes_escape (char : Char) : Escapes char (escape char) := by
  unfold escape
  split
  case h_7 char quote backslash _ _ _ _ =>
    split
    next shown => exact .plain shown quote backslash
    next => exact .number
  all_goals exact .letter (by decide)

theorem Escapes.printable {char : Char} {chars : List Char} (escapes : Escapes char chars) :
    ∀ other ∈ chars, Text.printable other = true := by
  have backslash : Text.printable '\\' = true := printable_of_ascii (by decide) (by decide)
  cases escapes with
  | letter known =>
      have ascii : ∀ pair ∈ letters, 0x20 ≤ pair.1.toNat ∧ pair.1.toNat < 0x7F := by decide
      obtain ⟨first, last⟩ := ascii _ known
      exact List.forall_mem_cons.mpr
        ⟨backslash, List.forall_mem_singleton.mpr (printable_of_ascii first last)⟩
  | plain shown => exact List.forall_mem_singleton.mpr shown
  | number =>
      refine List.forall_mem_cons.mpr ⟨backslash, List.forall_mem_cons.mpr ⟨?_,
        List.forall_mem_cons.mpr ⟨?_, List.forall_mem_append.mpr ⟨?_, ?_⟩⟩⟩⟩
      · exact printable_of_ascii (by decide) (by decide)
      · exact printable_of_ascii (by decide) (by decide)
      · exact fun other member => printable_of_isSolid (isSolid_of_mem_hexadecimal member).1
      · exact List.forall_mem_singleton.mpr (printable_of_ascii (by decide) (by decide))

/-- Whatever a text holds, it can be shown when it is quoted. -/
theorem printable_of_mem_quoteChars {chars : List Char} :
    ∀ char ∈ quoteChars chars, printable char = true := by
  have quote : printable '"' = true := printable_of_ascii (by decide) (by decide)
  refine List.forall_mem_append.mpr ⟨List.forall_mem_cons.mpr ⟨quote, ?_⟩,
    List.forall_mem_singleton.mpr quote⟩
  rw [List.forall_mem_flatMap]
  exact fun char _ => (escapes_escape char).printable

end Text

/-! ### Texts of scalars -/

theorem Integer.eq_or_isDigit_of_mem_repr {value : Int} :
    ∀ char ∈ value.repr.toList, char = '-' ∨ char.isDigit = true := by
  have digits : ∀ number : Nat, ∀ char ∈ number.repr.toList, char = '-' ∨ char.isDigit = true := by
    intro number char member
    rw [Nat.repr_eq_ofList_toDigits, String.toList_ofList] at member
    exact .inr (Nat.isDigit_of_mem_toDigits (by decide) (by decide) member)
  have minus : ∀ char ∈ "-".toList, char = '-' ∨ char.isDigit = true := by simp
  rw [Int.repr_eq_if]
  split
  next => exact digits _
  next =>
    rw [String.toList_append]
    exact List.forall_mem_append.mpr ⟨minus, digits _⟩

theorem Integer.isSolid_of_mem_repr {value : Int} :
    ∀ char ∈ value.repr.toList, Text.isSolid char = true := by
  intro char member
  rcases eq_or_isDigit_of_mem_repr char member with rfl | digit
  · decide
  · exact Text.isSolid_of_isDigit digit

namespace DecimalStyle

variable {digits : List Char}

theorem isSolid_of_mem_positional {exponent : Int}
    (solid : ∀ char ∈ digits, Text.isSolid char = true) :
    ∀ char ∈ positional digits exponent, Text.isSolid char = true := by
  have zeros : ∀ count, ∀ char ∈ List.replicate count '0', Text.isSolid char = true := by
    intro count char member
    rw [List.eq_of_mem_replicate member]
    decide
  unfold positional
  split
  next =>
    exact List.forall_mem_append.mpr
      ⟨List.forall_mem_append.mpr ⟨solid, zeros _⟩,
        List.all_eq_true.mp (by decide)⟩
  next =>
    dsimp only
    generalize exponent.neg.toNat = places
    have padded := List.forall_mem_append.mpr ⟨zeros (places + 1 - digits.length), solid⟩
    refine List.forall_mem_append.mpr ⟨fun char member => padded char (List.mem_of_mem_take member),
      List.forall_mem_cons.mpr ⟨by decide, fun char member => ?_⟩⟩
    exact padded char (List.mem_of_mem_drop member)

theorem isSolid_of_mem_scientific {order : Int}
    (solid : ∀ char ∈ digits, Text.isSolid char = true) :
    ∀ char ∈ scientific digits order, Text.isSolid char = true := by
  unfold scientific
  refine List.forall_mem_append.mpr ⟨List.forall_mem_append.mpr
    ⟨fun char member => solid char (List.mem_of_mem_take member), ?_⟩,
    List.forall_mem_cons.mpr ⟨by decide, Integer.isSolid_of_mem_repr⟩⟩
  cases digits with
  | nil => exact nofun
  | cons first rest =>
      obtain ⟨-, others⟩ := List.forall_mem_cons.mp solid
      cases rest with
      | nil => exact nofun
      | cons => exact List.forall_mem_cons.mpr ⟨by decide, others⟩

/-- Digits, a point and an exponent. -/
theorem isSolid_of_mem_write {style : DecimalStyle} {decimal : Decimal} :
    ∀ char ∈ style.write decimal, Text.isSolid char = true := by
  have all : ∀ char ∈ Nat.toDigits 10 decimal.digits, Text.isSolid char = true := fun char member =>
    Text.isSolid_of_isDigit (Nat.isDigit_of_mem_toDigits (by decide) (by decide) member)
  have trimmed : ∀ char ∈ ((Nat.toDigits 10 decimal.digits).reverse.dropWhile (· = '0')).reverse,
      Text.isSolid char = true := by
    intro char member
    have inner := (List.dropWhile_sublist _).mem (List.mem_reverse.mp member)
    exact all char (List.mem_reverse.mp inner)
  unfold write
  dsimp only
  split
  next => exact isSolid_of_mem_positional trimmed
  next => exact isSolid_of_mem_scientific trimmed

end DecimalStyle

theorem Binary64.isSolid_of_mem_text {number : Binary64} :
    ∀ char ∈ number.text.toList, Text.isSolid char = true := by
  have sign : ∀ char ∈ (if number.isNegative then "-" else "").toList,
      Text.isSolid char = true := by
    split
    next => exact List.all_eq_true.mp (by decide)
    next => exact nofun
  unfold text
  split
  next => exact List.all_eq_true.mp (by decide)
  next =>
    rw [String.toList_append]
    refine List.forall_mem_append.mpr ⟨sign, ?_⟩
    split
    next => exact List.all_eq_true.mp (by decide)
    next =>
      split
      next => exact List.all_eq_true.mp (by decide)
      next =>
        rw [String.toList_ofList]
        exact DecimalStyle.isSolid_of_mem_write

/-- All scalars but strings are written without blanks and quotes. -/
theorem Scalar.isSolid_text {value : Scalar} (bare : ∀ contents, value ≠ .string contents) :
    value.text.toList.all Text.isSolid = true := by
  rw [List.all_eq_true]
  cases value with
  | null => exact List.all_eq_true.mp (by decide)
  | bool value =>
      cases value with
      | true | false => exact List.all_eq_true.mp (by decide)
  | int value => exact Integer.isSolid_of_mem_repr
  | float number => exact Binary64.isSolid_of_mem_text
  | string contents => exact absurd rfl (bare contents)

/-! ### Pieces -/

/-- What stands between words and quoted texts. -/
def Piece.marks : List String :=
  ["(", ")", "=", ",", ", ", ": ", "[", "]", "[]", "\x7b", "\x7d", "\x7b\x7d"]

/-- What a piece of a layout is: a mark, a word or a quoted text. -/
inductive Piece.Printed : Piece → Prop
  | mark {text : String} (known : text ∈ Piece.marks) : Printed ⟨none, text⟩
  | word {tint : Tint} {text : String} (solid : text.toList.all Text.isSolid = true) :
      Printed ⟨some tint, text⟩
  | quoted {text : String} : Printed ⟨some .quoted, Text.quote text⟩

theorem Piece.Printed.printable {piece : Piece} (printed : piece.Printed) :
    ∀ char ∈ piece.text.toList, Text.printable char = true := by
  cases printed with
  | @mark text known =>
      have each : ∀ text ∈ Piece.marks, text.toList.all Text.printable = true := by
        decide +kernel
      exact List.all_eq_true.mp (each text known)
  | word solid => exact fun char member =>
      Text.printable_of_isSolid (List.all_eq_true.mp solid char member)
  | quoted =>
      rw [Text.quote, String.toList_ofList]
      exact Text.printable_of_mem_quoteChars

namespace Layout

variable {left right layout : Layout} {layouts : List Layout} {lines : List Line}

/-- The pieces in order, wherever the lines break. -/
def pieces (layout : Layout) : List Piece :=
  layout.first ++ layout.others.flatMap Line.pieces

/-- What is written of lines is written of their extension, and then what is written of more. -/
theorem flatMap_extendLast {α : Type} {write : Line → List α} {more : List Piece} {rest : List α}
    (extended : ∀ line : Line, write ⟨line.depth, line.pieces ++ more⟩ = write line ++ rest)
    (nonempty : lines ≠ []) :
    (extendLast more lines).flatMap write = lines.flatMap write ++ rest := by
  induction lines with
  | nil => exact absurd rfl nonempty
  | cons line lines ih =>
      cases lines with
      | nil =>
          rw [extendLast, List.flatMap_cons, extended, List.flatMap_cons]
          simp only [List.flatMap_nil, List.append_nil]
      | cons next others =>
          rw [extendLast, List.flatMap_cons, ih (List.cons_ne_nil next others),
            ← List.append_assoc, ← List.flatMap_cons]

@[simp] theorem pieces_append : (left ++ right).pieces = left.pieces ++ right.pieces := by
  change (Layout.append left right).pieces = _
  unfold Layout.append pieces
  split
  next none => simp [none]
  next nonempty =>
    rw [List.flatMap_append, flatMap_extendLast (fun _ => rfl) nonempty]
    simp

theorem flatMap_indented : layout.indented.flatMap Line.pieces = layout.pieces := by
  have same : layout.others.flatMap (fun line => line.deeper.pieces) =
      layout.others.flatMap Line.pieces := rfl
  simp only [indented, List.map_cons, List.flatMap_cons, List.flatMap_map, same]
  rfl

/-- The first of the lines is the only one that is known. -/
theorem pieces_lines (first : List Piece) (lines : List Line) :
    (Layout.mk first lines).pieces = first ++ lines.flatMap Line.pieces := rfl

/-! ### What layouts are made of -/

/-- Every piece is a mark, a word or a quoted text. -/
def Printed (layout : Layout) : Prop :=
  ∀ piece ∈ layout.pieces, piece.Printed

theorem printed_plain {text : String} (known : text ∈ Piece.marks) : (plain text).Printed :=
  List.forall_mem_singleton.mpr (.mark known)

theorem printed_tinted {tint : Tint} {text : String} (solid : text.toList.all Text.isSolid = true) :
    (tinted tint text).Printed :=
  List.forall_mem_singleton.mpr (.word solid)

theorem printed_string (text : String) : (string text).Printed :=
  List.forall_mem_singleton.mpr .quoted

theorem Printed.append (first : left.Printed) (second : right.Printed) :
    (left ++ right).Printed := by
  unfold Printed
  rw [pieces_append]
  exact List.forall_mem_append.mpr ⟨first, second⟩

theorem printed_separated {separator : Layout} (between : separator.Printed) (some : layouts ≠ [])
    (each : ∀ layout ∈ layouts, layout.Printed) : (separated separator layouts).Printed := by
  induction layouts with
  | nil => exact absurd rfl some
  | cons layout rest ih =>
      obtain ⟨first, each⟩ := List.forall_mem_cons.mp each
      cases rest with
      | nil => exact first
      | cons next rest => exact (first.append between).append (ih (List.cons_ne_nil _ _) each)

theorem printed_indented (printed : layout.Printed) :
    ∀ piece ∈ layout.indented.flatMap Line.pieces, piece.Printed := by
  rw [flatMap_indented]
  exact printed

theorem printed_stacked (each : ∀ layout ∈ layouts, layout.Printed) :
    ∀ piece ∈ (stacked layouts).flatMap Line.pieces, piece.Printed := by
  induction layouts with
  | nil => exact nofun
  | cons layout rest ih =>
      obtain ⟨first, each⟩ := List.forall_mem_cons.mp each
      cases rest with
      | nil => exact printed_indented first
      | cons next rest =>
          rw [stacked, List.flatMap_append]
          exact List.forall_mem_append.mpr
            ⟨printed_indented (first.append (printed_plain (by decide))), ih each⟩

/-- Two lines of their own around other lines. -/
theorem printed_enclosed {opening closing : String} (opens : opening ∈ Piece.marks)
    (closes : closing ∈ Piece.marks)
    (inner : ∀ piece ∈ lines.flatMap Line.pieces, piece.Printed) :
    (Layout.mk [⟨none, opening⟩] (lines ++ [⟨0, [⟨none, closing⟩]⟩])).Printed := by
  unfold Printed
  rw [pieces_lines, List.flatMap_append]
  refine List.forall_mem_append.mpr ⟨List.forall_mem_singleton.mpr (.mark opens),
    List.forall_mem_append.mpr ⟨inner, ?_⟩⟩
  exact List.forall_mem_singleton.mpr (.mark closes)

theorem printed_bracketed {opening closing : String} (opens : opening ∈ Piece.marks)
    (closes : closing ∈ Piece.marks) (both : opening ++ closing ∈ Piece.marks)
    (each : ∀ layout ∈ layouts, layout.Printed) :
    (bracketed opening closing layouts).Printed := by
  unfold bracketed
  split
  next => exact printed_plain both
  next =>
    refine printed_enclosed opens closes ?_
    rw [List.flatMap_assoc, List.forall_mem_flatMap]
    exact fun layout member => printed_indented ((each layout member).append
      (printed_plain (by decide)))

/-- Fields of a node, each labelled with a word. -/
def PrintedFields (fields : List (String × Layout)) : Prop :=
  ∀ field ∈ fields, field.1.toList.all Text.isSolid = true ∧ field.2.Printed

theorem PrintedFields.nil : PrintedFields [] := nofun

theorem PrintedFields.cons {label : String} {fields : List (String × Layout)}
    (solid : label.toList.all Text.isSolid = true) (printed : layout.Printed)
    (rest : PrintedFields fields) : PrintedFields ((label, layout) :: fields) :=
  List.forall_mem_cons.mpr ⟨⟨solid, printed⟩, rest⟩

/-- A field with its label. -/
def field (labelled : String × Layout) : Layout :=
  tinted .label labelled.1 ++ plain "=" ++ labelled.2

/-- Fields in parentheses, each on lines of its own if one of several needs more than one line. -/
def inside (fields : List Layout) : Layout :=
  if 1 < fields.length ∧ ¬ fields.all isOneLine then
    ⟨[⟨none, "("⟩], stacked fields ++ [⟨0, [⟨none, ")"⟩]⟩]⟩
  else plain "(" ++ separated (plain ", ") fields ++ plain ")"

theorem node_eq (name : String) (fields : List (String × Layout)) :
    node name fields = tinted .node name ++ inside (fields.map field) := rfl

theorem printed_inside (some : layouts ≠ []) (each : ∀ layout ∈ layouts, layout.Printed) :
    (inside layouts).Printed := by
  unfold inside
  split
  next => exact printed_enclosed (by decide) (by decide) (printed_stacked each)
  next =>
    have comma : (plain ", ").Printed := printed_plain (by decide)
    have fields := printed_separated comma some each
    exact ((printed_plain (by decide)).append fields).append (printed_plain (by decide))

theorem printed_node {name : String} {field : String × Layout} {fields : List (String × Layout)}
    (named : name.toList.all Text.isSolid = true) (each : PrintedFields (field :: fields)) :
    (node name (field :: fields)).Printed := by
  rw [node_eq]
  refine (printed_tinted named).append (printed_inside (List.cons_ne_nil _ _) ?_)
  rw [List.forall_mem_map]
  intro labelled member
  obtain ⟨label, value⟩ := each labelled member
  exact ((printed_tinted label).append (printed_plain (by decide))).append value

theorem printed_list {layouts : List Layout} (each : ∀ layout ∈ layouts, layout.Printed) :
    (bracketed "[" "]" layouts).Printed :=
  printed_bracketed (by decide) (by decide) (by decide) each

end Layout

/-! ### Documents -/

theorem Scalar.printed_layout (value : Scalar) : value.layout.Printed := by
  cases value with
  | string => exact Layout.printed_string _
  | _ => exact Layout.printed_tinted (Scalar.isSolid_text nofun)

theorem Scalar.printed_literalLayout (value : Scalar) : value.literalLayout.Printed :=
  Layout.printed_node (by decide) (.cons (by decide) value.printed_layout .nil)

namespace Expression

mutual

theorem printed_layout : ∀ expression : Expression, expression.layout.Printed
  | literal value => value.printed_literalLayout
  | array items =>
    Layout.printed_node (by decide)
      (.cons (by decide) (Layout.printed_list (printed_layoutAll items)) .nil)
  | object fields =>
    Layout.printed_node (by decide) (.cons (by decide)
      (Layout.printed_bracketed (by decide) (by decide) (by decide) (printed_layoutFields fields))
      .nil)
  | call function arguments =>
    Layout.printed_node (by decide) (.cons (by decide) (Layout.printed_string function)
      (.cons (by decide) (Layout.printed_list (printed_layoutAll arguments)) .nil))
  | identifier name =>
    Layout.printed_node (by decide) (.cons (by decide) (Layout.printed_string name) .nil)
  | getAttr on name =>
    Layout.printed_node (by decide) (.cons (by decide) (printed_layout on)
      (.cons (by decide) (Layout.printed_string name) .nil))
  | getIndex on index =>
    Layout.printed_node (by decide) (.cons (by decide) (printed_layout on)
      (.cons (by decide) index.printed_literalLayout .nil))
  | attrSplat on | indexSplat on =>
    Layout.printed_node (by decide) (.cons (by decide) (printed_layout on) .nil)
  | unary op operand =>
    Layout.printed_node (by decide) (.cons (by decide) (Layout.printed_string op.symbol)
      (.cons (by decide) (printed_layout operand) .nil))
  | binary op left right =>
    Layout.printed_node (by decide) (.cons (by decide) (Layout.printed_string op.symbol)
      (.cons (by decide) (printed_layout left) (.cons (by decide) (printed_layout right) .nil)))

theorem printed_layoutAll : ∀ items : List Expression, ∀ layout ∈ layoutAll items, layout.Printed
  | [] => nofun
  | item :: rest => List.forall_mem_cons.mpr ⟨printed_layout item, printed_layoutAll rest⟩

theorem printed_layoutFields : ∀ fields : List (String × Expression),
    ∀ layout ∈ layoutFields fields, layout.Printed
  | [] => nofun
  | (key, value) :: rest => by
    have colon : (Layout.plain ": ").Printed := Layout.printed_plain (by decide)
    exact List.forall_mem_cons.mpr
      ⟨((Layout.printed_string key).append colon).append (printed_layout value),
        printed_layoutFields rest⟩

end

end Expression

namespace Statement

mutual

theorem printed_layout : ∀ statement : Statement, statement.layout.Printed
  | assign key value =>
    Layout.printed_node (by decide) (.cons (by decide) (Layout.printed_string key)
      (.cons (by decide) value.printed_layout .nil))
  | block name labels body =>
    Layout.printed_node (by decide) (.cons (by decide) (Layout.printed_string name)
      (.cons (by decide) (Layout.printed_list (Expression.printed_layoutAll labels))
        (.cons (by decide) (Layout.printed_list (printed_layoutAll body)) .nil)))

theorem printed_layoutAll : ∀ statements : List Statement,
    ∀ layout ∈ layoutAll statements, layout.Printed
  | [] => nofun
  | statement :: rest =>
    List.forall_mem_cons.mpr ⟨printed_layout statement, printed_layoutAll rest⟩

end

end Statement

theorem Document.printed_layout (document : Document) : document.layout.Printed :=
  Layout.printed_node (by decide) (.cons (by decide)
    (Layout.printed_list (Statement.printed_layoutAll document.body)) .nil)

/-- What can be printed. -/
inductive Node where
  | document (value : Document)
  | statement (value : Statement)
  | literal (value : Scalar)
  | expression (value : Expression)

def Node.layout : Node → Layout
  | .document value => value.layout
  | .statement value => value.layout
  | .literal value => value.literalLayout
  | .expression value => value.layout

theorem Node.printed_layout (node : Node) : node.layout.Printed := by
  cases node with
  | document value => exact value.printed_layout
  | statement value => exact value.printed_layout
  | literal value => exact value.printed_literalLayout
  | expression value => exact value.printed_layout

/-! ### Rendered texts -/

/-- The characters of a piece. -/
def Piece.chars (color : Bool) (piece : Piece) : List Char :=
  (piece.render color).toList

/-- The characters of a line with the line feed before it. -/
def Line.chars (options : LayoutOptions) (line : Line) : List Char :=
  '\n' :: (List.replicate (line.depth * options.indent) ' ' ++
    line.pieces.flatMap (Piece.chars options.color))

namespace Layout

theorem intercalate_cons {α : Type} (separator : α) (first : List α) (others : List (List α)) :
    [separator].intercalate (first :: others) =
      first ++ others.flatMap fun other => separator :: other := by
  induction others generalizing first with
  | nil => simp
  | cons other others ih =>
      rw [List.intercalate_cons_cons, ih, List.flatMap_cons]
      simp

/-- A text is its first line and then line after line. -/
theorem toList_render (options : LayoutOptions) (layout : Layout) :
    (layout.render options).toList =
      layout.first.flatMap (Piece.chars options.color) ++
        layout.others.flatMap (Line.chars options) := by
  have render_line : (fun line => String.toList (Line.render options line)) = fun line =>
      List.replicate (line.depth * options.indent) ' ' ++
        line.pieces.flatMap (Piece.chars options.color) := by
    funext line
    rw [Line.render, String.toList_append, String.toList_ofList, String.toList_join,
      List.flatMap_map]
    rfl
  rw [render, String.toList_intercalate, List.map_map, Function.comp_def, render_line, lines,
    List.map_cons]
  refine (intercalate_cons '\n' _ _).trans ?_
  rw [Nat.zero_mul, List.replicate_zero, List.nil_append, List.flatMap_map]
  rfl

end Layout

end ConfigLang
