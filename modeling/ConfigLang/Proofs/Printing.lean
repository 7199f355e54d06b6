import ConfigLang.Proofs.Printed
import Mathlib.Data.List.Forall2
/-!
Printing from texts alone. A node is put together from the printed texts of its fields: these are
split into their lines, indented and joined again, and the node takes more lines if one of them has
a line feed, wherever it comes from. What is printed so is the text of the node's layout.
-/

set_option autoImplicit false

namespace ConfigLang

/-! ### Lines of a text -/

namespace Text

/-- White space of Unicode. -/
def isWhite (char : Char) : Bool :=
  let code := char.toNat
  (0x9 ≤ code && code ≤ 0xD) || code = 0x20 || code = 0x85 || code = 0xA0 || code = 0x1680 ||
    (0x2000 ≤ code && code ≤ 0x200A) || code = 0x2028 || code = 0x2029 || code = 0x202F ||
    code = 0x205F || code = 0x3000

/-- A character that does not end a line. -/
def isFlat (char : Char) : Bool :=
  char ≠ '\n' && char ≠ '\r'

/-- A line from its characters in reverse, without the carriage return that is part of its end. -/
def endLine : List Char → List Char
  | '\r' :: line => line.reverse
  | line => line.reverse

/-- The lines of a text of which the first has been begun, in reverse. An end of the text behind the
end of a line does not begin another one. -/
def splitLines (line : List Char) : List Char → List (List Char)
  | [] => if line.isEmpty then [] else [line.reverse]
  | char :: rest =>
    if char = '\n' then endLine line :: splitLines [] rest else splitLines (char :: line) rest

/-- A quoted text has its quotes at least. -/
theorem white_quote (text : String) : (quote text).toList.all isWhite = false := by
  rw [quote, String.toList_ofList, quoteChars]
  rfl

/-- A line that needs no care: it is not empty and does not hold what ends a line. -/
structure IsLine (line : List Char) : Prop where
  some : line ≠ []
  flat : ∀ char ∈ line, isFlat char = true

theorem IsLine.feed {line : List Char} (isLine : IsLine line) : '\n' ∉ line := fun member =>
  absurd (isLine.flat _ member) (by decide)

theorem IsLine.ending {line : List Char} (isLine : IsLine line) : '\r' ∉ line := fun member =>
  absurd (isLine.flat _ member) (by decide)

theorem splitLines_append {begun line rest : List Char} (feed : '\n' ∉ line) :
    splitLines begun (line ++ rest) = splitLines (line.reverse ++ begun) rest := by
  induction line generalizing begun with
  | nil => rfl
  | cons char line ih =>
      rw [List.cons_append, splitLines, if_neg (List.ne_of_not_mem_cons feed).symm,
        ih (List.not_mem_of_not_mem_cons feed), List.reverse_cons, List.append_assoc]
      rfl

theorem endLine_reverse {line : List Char} (ending : '\r' ∉ line) :
    endLine line.reverse = line := by
  have same : ∀ reversed : List Char, '\r' ∉ reversed → endLine reversed = reversed.reverse := by
    intro reversed absent
    unfold endLine
    split
    next => exact absurd List.mem_cons_self absent
    next => rfl
  rw [same _ fun member => ending (List.mem_reverse.mp member), List.reverse_reverse]

/-- Lines that are joined are split again. -/
theorem splitLines_intercalate {first : List Char} {others : List (List Char)}
    (line : IsLine first) (lines : ∀ other ∈ others, IsLine other) :
    splitLines [] (first ++ others.flatMap ('\n' :: ·)) = first :: others := by
  induction others generalizing first with
  | nil =>
      rw [splitLines_append line.feed, List.append_nil, List.flatMap_nil, splitLines,
        if_neg (by simpa using line.some), List.reverse_reverse]
  | cons next others ih =>
      obtain ⟨second, lines⟩ := List.forall_mem_cons.mp lines
      rw [splitLines_append line.feed, List.append_nil, List.flatMap_cons, List.cons_append,
        splitLines, if_pos rfl, endLine_reverse line.ending, ih second lines]

end Text

/-! ### The printer -/

namespace Printer

variable (options : LayoutOptions)

def paint (tint : Tint) (text : String) : String :=
  if options.color then tint.opening ++ text ++ Tint.closing else text

/-- A line behind some spaces, if there is something on it. -/
def padLine (line : List Char) : String :=
  if line.all Text.isWhite then String.ofList line
  else String.ofList (List.replicate options.indent ' ') ++ String.ofList line

def pad (text : String) : String :=
  "\n".intercalate ((Text.splitLines [] text.toList).map (padLine options))

def string (text : String) : String :=
  paint options .quoted (Text.quote text)

def scalar : Scalar → String
  | .string value => string options value
  | value => paint options .label value.text

/-- Marks around texts that take their own lines, each with a comma. -/
def bracketed (opening closing : String) (texts : List String) : String :=
  if texts.isEmpty then opening ++ closing
  else
    opening ++ String.join (texts.map fun text => "\n" ++ pad options text ++ ",") ++ "\n" ++
      closing

/-- Fields in parentheses, on lines of their own if there are more than one and one has more than
one line. -/
def inside (texts : List String) : String :=
  if 1 < texts.length ∧ texts.any (·.toList.contains '\n') then
    "(\n" ++ ",\n".intercalate (texts.map (pad options)) ++ "\n)"
  else "(" ++ ", ".intercalate texts ++ ")"

def field (labelled : String × String) : String :=
  paint options .label labelled.1 ++ "=" ++ labelled.2

def node (name : String) (fields : List (String × String)) : String :=
  paint options .node name ++ inside options (fields.map (field options))

def literal (value : Scalar) : String :=
  node options "Literal" [("value", scalar options value)]

mutual

def expression : Expression → String
  | .literal value => literal options value
  | .array items =>
    node options "Array" [("values", bracketed options "[" "]" (expressions items))]
  | .object fields =>
    node options "Object" [("fields", bracketed options "\x7b" "\x7d" (entries fields))]
  | .call function arguments =>
    node options "FunctionCall" [("name", string options function),
      ("args", bracketed options "[" "]" (expressions arguments))]
  | .identifier name => node options "Identifier" [("name", string options name)]
  | .getAttr on name =>
    node options "GetAttr" [("on", expression on), ("name", string options name)]
  | .getIndex on index =>
    node options "GetIndex" [("on", expression on), ("index", literal options index)]
  | .attrSplat on => node options "AttrSplat" [("on", expression on)]
  | .indexSplat on => node options "IndexSplat" [("on", expression on)]
  | .unary op operand =>
    node options "UnaryOp" [("op", string options op.symbol), ("expr", expression operand)]
  | .binary op left right =>
    node options "BinaryOp" [("op", string options op.symbol), ("left", expression left),
      ("right", expression right)]

def expressions : List Expression → List String
  | [] => []
  | item :: rest => expression item :: expressions rest

def entries : List (String × Expression) → List String
  | [] => []
  | (key, value) :: rest => (string options key ++ ": " ++ expression value) :: entries rest

end

mutual

def statement : Statement → String
  | .assign key value =>
    node options "Attribute" [("key", string options key), ("value", expression options value)]
  | .block name labels body =>
    node options "Block" [("name", string options name),
      ("args", bracketed options "[" "]" (expressions options labels)),
      ("body", bracketed options "[" "]" (statements body))]

def statements : List Statement → List String
  | [] => []
  | first :: rest => statement first :: statements rest

end

def document (value : Document) : String :=
  node options "Module" [("body", bracketed options "[" "]" (statements options value.body))]

end Printer

/-- What is printed of a node. -/
def Node.print (options : LayoutOptions) : Node → String
  | .document value => Printer.document options value
  | .statement value => Printer.statement options value
  | .literal value => Printer.literal options value
  | .expression value => Printer.expression options value

/-! ### Lines of a layout -/

variable {options : LayoutOptions}

/-- Something can be seen on the line. -/
def Line.Inked (line : Line) : Prop :=
  ∃ piece ∈ line.pieces, ∃ char ∈ piece.text.toList, Text.isWhite char = false

/-- The characters of a line behind the line feed. -/
def Line.shown (options : LayoutOptions) (line : Line) : List Char :=
  List.replicate (line.depth * options.indent) ' ' ++
    line.pieces.flatMap (Piece.chars options.color)

/-- A level is an indentation more. -/
theorem Line.shown_deeper (line : Line) : line.deeper.shown options =
    List.replicate options.indent ' ' ++ line.shown options := by
  have depth : line.deeper.depth * options.indent =
      options.indent + line.depth * options.indent := by
    rw [deeper, Nat.succ_mul, Nat.add_comm]
  rw [shown, depth, List.replicate_add, List.append_assoc]
  rfl

theorem Piece.mem_chars {piece : Piece} {char : Char} (member : char ∈ piece.text.toList)
    (color : Bool) : char ∈ piece.chars color := by
  obtain ⟨tint, text⟩ := piece
  unfold chars render
  split
  next =>
    rw [String.toList_append, String.toList_append]
    exact List.mem_append_left _ (List.mem_append_right _ member)
  next => exact member

/-- Neither what is printed nor the escapes hold what ends a line. -/
theorem Piece.Printed.flat {piece : Piece} (printed : piece.Printed) (color : Bool) :
    ∀ char ∈ piece.chars color, Text.isFlat char = true := by
  have text : ∀ char ∈ piece.text.toList, Text.isFlat char = true := by
    intro char member
    have shown := printed.printable char member
    simp only [Text.isFlat, Bool.and_eq_true, decide_eq_true_eq]
    constructor
    · rintro rfl
      exact absurd shown (by decide +kernel)
    · rintro rfl
      exact absurd shown (by decide +kernel)
  have closing : ∀ char ∈ Tint.closing.toList, Text.isFlat char = true :=
    List.all_eq_true.mp (by decide +kernel)
  have opening (tint : Tint) : ∀ char ∈ tint.opening.toList, Text.isFlat char = true := by
    cases tint with
    | node | label | quoted => exact List.all_eq_true.mp (by decide +kernel)
  obtain ⟨tint, text⟩ := piece
  unfold chars render
  split
  next tint _ =>
    rw [String.toList_append, String.toList_append]
    exact List.forall_mem_append.mpr ⟨List.forall_mem_append.mpr ⟨opening tint, text⟩, closing⟩
  next => exact text

theorem Line.Inked.white {line : Line} (inked : line.Inked) :
    (line.shown options).all Text.isWhite = false := by
  obtain ⟨piece, among, char, member, seen⟩ := inked
  refine List.all_eq_false.mpr ⟨char, ?_, by simp [seen]⟩
  exact List.mem_append_right _ (List.mem_flatMap_of_mem among (piece.mem_chars member _))

theorem Line.Inked.isLine {line : Line} (inked : line.Inked)
    (printed : ∀ piece ∈ line.pieces, piece.Printed) : Text.IsLine (line.shown options) := by
  have flat : ∀ char ∈ line.shown options, Text.isFlat char = true := by
    refine List.forall_mem_append.mpr ⟨fun char member => ?_, List.forall_mem_flatMap.mpr
      fun piece among => (printed piece among).flat _⟩
    rw [List.eq_of_mem_replicate member]
    decide
  refine ⟨?_, flat⟩
  intro none
  have white : (line.shown options).all Text.isWhite = false := inked.white
  rw [none] at white
  cases white

/-- A line on which something can be seen is padded. -/
theorem Line.Inked.padLine {line : Line} (inked : line.Inked) :
    (Printer.padLine options (line.shown options)).toList = line.deeper.shown options := by
  have seen : ¬ (line.shown options).all Text.isWhite = true := by
    rw [inked.white]
    exact Bool.false_ne_true
  rw [Printer.padLine, if_neg seen, String.toList_append, String.toList_ofList,
    String.toList_ofList, Line.shown_deeper]

/-! ### Texts of layouts -/

namespace Layout

variable {left right layout : Layout} {layouts : List Layout} {lines : List Line}

theorem chars_extended (options : LayoutOptions) (more : List Piece) (line : Line) :
    Line.chars options ⟨line.depth, line.pieces ++ more⟩ =
      line.chars options ++ more.flatMap (Piece.chars options.color) := by
  simp [Line.chars]

theorem render_append :
    (left ++ right).render options = left.render options ++ right.render options := by
  apply String.toList_inj.mp
  rw [String.toList_append, toList_render, toList_render, toList_render]
  change (Layout.append left right).first.flatMap _ ++
    (Layout.append left right).others.flatMap _ = _
  unfold Layout.append
  split
  next none => simp [none]
  next nonempty =>
    rw [List.flatMap_append, flatMap_extendLast (chars_extended options _) nonempty]
    simp

/-- Something can be seen on the first line. -/
def Headed (layout : Layout) : Prop :=
  Line.Inked ⟨0, layout.first⟩

/-- Something can be seen on each of the other lines. -/
def Inked (layout : Layout) : Prop :=
  ∀ line ∈ layout.others, line.Inked

theorem inked_extendLast {more : List Piece} (inked : ∀ line ∈ lines, line.Inked) :
    ∀ line ∈ extendLast more lines, line.Inked := by
  induction lines with
  | nil => exact inked
  | cons line lines ih =>
      obtain ⟨first, others⟩ := List.forall_mem_cons.mp inked
      cases lines with
      | nil =>
          obtain ⟨piece, among, seen⟩ := first
          exact List.forall_mem_singleton.mpr ⟨piece, List.mem_append_left _ among, seen⟩
      | cons next rest => exact List.forall_mem_cons.mpr ⟨first, ih others⟩

theorem Inked.append (first : left.Inked) (second : right.Inked) : (left ++ right).Inked := by
  change (Layout.append left right).Inked
  unfold Layout.append
  split
  next => exact second
  next => exact List.forall_mem_append.mpr ⟨inked_extendLast first, second⟩

theorem Headed.append (headed : left.Headed) (right : Layout) : (left ++ right).Headed := by
  change (Layout.append left right).Headed
  unfold Layout.append
  split
  next =>
    obtain ⟨piece, among, seen⟩ := headed
    exact ⟨piece, List.mem_append_left _ among, seen⟩
  next => exact headed

theorem inked_indented (headed : layout.Headed) (inked : layout.Inked) :
    ∀ line ∈ layout.indented, line.Inked :=
  List.forall_mem_map.mpr (List.forall_mem_cons.mpr ⟨headed, inked⟩)

theorem lines_append_plain (text : String) :
    (layout ++ plain text).lines = extendLast [⟨none, text⟩] layout.lines := by
  obtain ⟨first, others⟩ := layout
  cases others with
  | nil => rfl
  | cons line lines => exact congrArg (Line.mk 0 first :: ·) (List.append_nil _)

theorem map_deeper_extendLast (more : List Piece) (lines : List Line) :
    (extendLast more lines).map Line.deeper = extendLast more (lines.map Line.deeper) := by
  induction lines with
  | nil => rfl
  | cons line lines ih =>
      cases lines with
      | nil => rfl
      | cons next rest => exact congrArg (line.deeper :: ·) ih

/-- What is put behind lines is written behind them when they are indented, too. -/
theorem chars_indented_append (text : String) :
    (layout ++ plain text).indented.flatMap (Line.chars options) =
      layout.indented.flatMap (Line.chars options) ++ text.toList := by
  have lines : (layout ++ plain text).indented = extendLast [⟨none, text⟩] layout.indented := by
    change (layout ++ plain text).lines.map Line.deeper = _
    rw [lines_append_plain, map_deeper_extendLast]
    rfl
  have some : layout.indented ≠ [] := List.cons_ne_nil _ _
  rw [lines, flatMap_extendLast (chars_extended options _) some]
  simp [Piece.chars, Piece.render]

/-! ### Layouts of texts -/

/-- The text is what is rendered of the layout, in which something can be seen on each line but the
first. -/
structure Writes (options : LayoutOptions) (text : String) (layout : Layout) : Prop where
  render : layout.render options = text
  printed : layout.Printed
  inked : layout.Inked

namespace Writes

variable {text more : String}

theorem plain (known : text ∈ Piece.marks) : Writes options text (plain text) where
  render := by
    apply String.toList_inj.mp
    rw [toList_render]
    simp [Layout.plain, Piece.chars, Piece.render]
  printed := printed_plain known
  inked := nofun

theorem render_tinted (tint : Tint) (text : String) :
    (tinted tint text).render options = Printer.paint options tint text := by
  apply String.toList_inj.mp
  rw [toList_render, Printer.paint]
  cases on : options.color with
  | true | false => simp [Layout.tinted, Piece.chars, Piece.render]

theorem word {tint : Tint} (solid : text.toList.all Text.isSolid = true) :
    Writes options (Printer.paint options tint text) (tinted tint text) :=
  ⟨render_tinted tint text, printed_tinted solid, nofun⟩

theorem string (text : String) : Writes options (Printer.string options text) (string text) :=
  ⟨render_tinted .quoted (Text.quote text), printed_string text, nofun⟩

theorem append (first : Writes options text left) (second : Writes options more right) :
    Writes options (text ++ more) (left ++ right) where
  render := by rw [render_append, first.render, second.render]
  printed := first.printed.append second.printed
  inked := first.inked.append second.inked

/-- Without a line feed a text is the text of one line. -/
theorem contains_feed (writes : Writes options text layout) :
    text.toList.contains '\n' = !layout.isOneLine := by
  rw [← writes.render, toList_render]
  have first : (layout.first.flatMap (Piece.chars options.color)).contains '\n' = false := by
    rw [List.contains_eq_mem, decide_eq_false_iff_not, List.mem_flatMap]
    rintro ⟨piece, among, member⟩
    have printed := writes.printed piece (List.mem_append_left _ among)
    exact absurd (printed.flat options.color _ member) (by decide)
  rw [List.contains_append, first, Bool.false_or, isOneLine]
  cases layout.others with
  | nil => rfl
  | cons line lines => simp [Line.chars]

theorem splitLines (writes : Writes options text layout) (headed : layout.Headed) :
    Text.splitLines [] text.toList = layout.lines.map (Line.shown options) := by
  have printed : ∀ line ∈ layout.lines, ∀ piece ∈ line.pieces, piece.Printed := by
    obtain ⟨first, others⟩ := List.forall_mem_append.mp writes.printed
    exact List.forall_mem_cons.mpr ⟨first, List.forall_mem_flatMap.mp others⟩
  have inked : ∀ line ∈ layout.lines, line.Inked :=
    List.forall_mem_cons.mpr ⟨headed, writes.inked⟩
  have isLine : ∀ line ∈ layout.lines, Text.IsLine (line.shown options) := fun line member =>
    (inked line member).isLine (printed line member)
  obtain ⟨first, others⟩ := List.forall_mem_cons.mp isLine
  have text : text.toList = Line.shown options ⟨0, layout.first⟩ ++
      (layout.others.map (Line.shown options)).flatMap ('\n' :: ·) := by
    rw [← writes.render, toList_render, List.flatMap_map, Line.shown, Nat.zero_mul]
    rfl
  rw [text, Text.splitLines_intercalate first (List.forall_mem_map.mpr others)]
  rfl

/-- A text that is padded is the text of the indented layout. -/
theorem pad (writes : Writes options text layout) (headed : layout.Headed) :
    '\n' :: (Printer.pad options text).toList =
      layout.indented.flatMap (Line.chars options) := by
  have inked : ∀ line ∈ layout.lines, line.Inked :=
    List.forall_mem_cons.mpr ⟨headed, writes.inked⟩
  -- No line is taken for a blank one, whether or not escapes stand on it.
  have padded : ∀ line ∈ layout.lines,
      (String.toList ∘ Printer.padLine options ∘ Line.shown options) line =
        (Line.shown options ∘ Line.deeper) line := fun line member =>
    (inked line member).padLine
  rw [Printer.pad, writes.splitLines headed, String.toList_intercalate, List.map_map,
    List.map_map, Function.comp_assoc, List.map_congr_left padded, lines, List.map_cons]
  refine (congrArg ('\n' :: ·) (intercalate_cons '\n' _ _)).trans ?_
  rw [List.flatMap_map]
  change _ = (layout.lines.map Line.deeper).flatMap (Line.chars options)
  rw [List.flatMap_map, lines, List.flatMap_cons]
  rfl

end Writes

/-- A text on lines of its own. -/
structure Stands (options : LayoutOptions) (text : String) (layout : Layout) : Prop
    extends Writes options text layout where
  headed : layout.Headed

namespace Stands

variable {text : String} {texts : List String}

theorem append (first : Stands options text left) {more : String}
    (second : Writes options more right) : Stands options (text ++ more) (left ++ right) :=
  ⟨first.toWrites.append second, first.headed.append right⟩

theorem of_mem (each : List.Forall₂ (Stands options) texts layouts) (member : layout ∈ layouts) :
    ∃ text, Stands options text layout := by
  induction each with
  | nil => cases member
  | cons stands _ ih =>
      rcases List.mem_cons.mp member with rfl | among
      · exact ⟨_, stands⟩
      · exact ih among

/-- Texts that take their own lines, each with something behind it. -/
theorem chars_each (mark : String) (each : List.Forall₂ (Stands options) texts layouts) :
    (texts.flatMap fun text => '\n' :: (Printer.pad options text ++ mark).toList) =
      layouts.flatMap fun layout =>
        (layout ++ plain mark).indented.flatMap (Line.chars options) := by
  induction each with
  | nil => rfl
  | cons stands _ ih =>
      rw [List.flatMap_cons, List.flatMap_cons, ih, chars_indented_append,
        ← stands.pad stands.headed, String.toList_append]
      rfl

theorem chars_stacked (each : List.Forall₂ (Stands options) texts layouts) (some : texts ≠ []) :
    '\n' :: (",\n".intercalate (texts.map (Printer.pad options))).toList =
      (stacked layouts).flatMap (Line.chars options) := by
  induction each with
  | nil => exact absurd rfl some
  | @cons text layout texts layouts stands each ih =>
      have pad := stands.pad stands.headed
      cases each with
      | nil =>
          rw [List.map_cons, List.map_nil, String.intercalate_singleton, pad]
          rfl
      | cons =>
          have rest := ih (List.cons_ne_nil _ _)
          rw [List.map_cons, List.map_cons, String.intercalate_cons_cons, stacked,
            List.flatMap_append, chars_indented_append, ← pad, ← rest]
          simp

theorem separated (each : List.Forall₂ (Writes options) texts layouts) (some : texts ≠ []) :
    Writes options (", ".intercalate texts) (separated (Layout.plain ", ") layouts) := by
  induction each with
  | nil => exact absurd rfl some
  | cons writes each ih =>
      cases each with
      | nil =>
          rw [String.intercalate_singleton]
          exact writes
      | cons =>
          rw [String.intercalate_cons_cons]
          exact (writes.append (.plain (by decide))).append (ih (List.cons_ne_nil _ _))

end Stands

/-- A piece in which something can be seen. -/
theorem inked_of_mem {depth : Nat} {piece : Piece} {pieces : List Piece} (among : piece ∈ pieces)
    (seen : piece.text.toList.all Text.isWhite = false) : Line.Inked ⟨depth, pieces⟩ := by
  obtain ⟨char, member, differs⟩ := List.all_eq_false.mp seen
  exact ⟨piece, among, char, member, Bool.not_eq_true _ ▸ differs⟩

theorem render_enclosed (opening closing : String) (lines : List Line) :
    ((Layout.mk [⟨none, opening⟩] (lines ++ [⟨0, [⟨none, closing⟩]⟩])).render options).toList =
      opening.toList ++ lines.flatMap (Line.chars options) ++ '\n' :: closing.toList := by
  rw [toList_render]
  simp [Piece.chars, Piece.render, Line.chars]

theorem inked_appended (mark : String) (headed : layout.Headed) (inked : layout.Inked) :
    ∀ line ∈ (layout ++ plain mark).indented, line.Inked :=
  inked_indented (headed.append _) (inked.append fun _ member => by cases member)

theorem inked_stacked (each : ∀ layout ∈ layouts, layout.Headed ∧ layout.Inked) :
    ∀ line ∈ stacked layouts, line.Inked := by
  induction layouts with
  | nil => exact fun _ member => by cases member
  | cons layout rest ih =>
      obtain ⟨first, each⟩ := List.forall_mem_cons.mp each
      cases rest with
      | nil => exact inked_indented first.1 first.2
      | cons next rest =>
          exact List.forall_mem_append.mpr ⟨inked_appended "," first.1 first.2, ih each⟩

/-- Lines between two marks. -/
theorem inked_enclosed {opening closing : String}
    (seen : closing.toList.all Text.isWhite = false) (inked : ∀ line ∈ lines, line.Inked) :
    (Layout.mk [⟨none, opening⟩] (lines ++ [⟨0, [⟨none, closing⟩]⟩])).Inked :=
  List.forall_mem_append.mpr ⟨inked,
    List.forall_mem_singleton.mpr (inked_of_mem List.mem_cons_self seen)⟩

namespace Writes

variable {texts : List String}

theorem bracketed {opening closing : String} (opens : opening ∈ Piece.marks)
    (closes : closing ∈ Piece.marks) (both : opening ++ closing ∈ Piece.marks)
    (seen : closing.toList.all Text.isWhite = false)
    (each : List.Forall₂ (Stands options) texts layouts) :
    Writes options (Printer.bracketed options opening closing texts)
      (bracketed opening closing layouts) := by
  have printed : (Layout.bracketed opening closing layouts).Printed := by
    refine printed_bracketed opens closes both fun layout member => ?_
    obtain ⟨text, stands⟩ := Stands.of_mem each member
    exact stands.printed
  cases each with
  | nil => exact plain both
  | @cons text layout texts layouts stands each =>
      have all := List.Forall₂.cons stands each
      refine ⟨?_, printed, ?_⟩
      · have join : (String.join ((text :: texts).map fun text =>
            "\n" ++ Printer.pad options text ++ ",")).toList =
              (text :: texts).flatMap fun text => '\n' :: (Printer.pad options text ++ ",").toList := by
          rw [String.toList_join, List.flatMap_map]
          simp
        apply String.toList_inj.mp
        refine (render_enclosed opening closing _).trans ?_
        rw [List.flatMap_assoc, ← Stands.chars_each "," all, ← join]
        simp [Printer.bracketed]
      · refine inked_enclosed seen (List.forall_mem_flatMap.mpr fun layout member => ?_)
        obtain ⟨text, stands⟩ := Stands.of_mem all member
        exact inked_appended "," stands.headed stands.inked

/-- One text has a line feed if and only if one layout has more than one line. -/
theorem any_contains (each : List.Forall₂ (Stands options) texts layouts) :
    texts.any (·.toList.contains '\n') = !layouts.all isOneLine := by
  induction each with
  | nil => rfl
  | cons stands _ ih =>
      rw [List.any_cons, List.all_cons, ih, stands.contains_feed, Bool.not_and]

theorem inside (each : List.Forall₂ (Stands options) texts layouts) (some : texts ≠ []) :
    Writes options (Printer.inside options texts) (inside layouts) := by
  have breaks : (1 < texts.length ∧ texts.any (·.toList.contains '\n')) ↔
      (1 < layouts.length ∧ ¬ layouts.all isOneLine) := by
    rw [each.length_eq, any_contains each, Bool.not_eq_true', Bool.not_eq_true]
  have all (layout : Layout) (member : layout ∈ layouts) :
      ∃ text, Stands options text layout := Stands.of_mem each member
  unfold Printer.inside Layout.inside
  by_cases several : 1 < layouts.length ∧ ¬ layouts.all isOneLine
  · rw [if_pos (breaks.mpr several), if_pos several]
    refine ⟨?_, ?_, ?_⟩
    · apply String.toList_inj.mp
      refine (render_enclosed "(" ")" _).trans ?_
      rw [← Stands.chars_stacked each some]
      simp
    · refine printed_enclosed (by decide) (by decide) (printed_stacked fun layout member => ?_)
      obtain ⟨text, stands⟩ := all layout member
      exact stands.printed
    · refine inked_enclosed (by decide +kernel) (inked_stacked fun layout member => ?_)
      obtain ⟨text, stands⟩ := all layout member
      exact ⟨stands.headed, stands.inked⟩
  · rw [if_neg fun breaking => several (breaks.mp breaking), if_neg several]
    have fields := Stands.separated (each.imp fun _ _ stands => stands.toWrites) some
    exact ((plain (by decide)).append fields).append (plain (by decide))

end Writes

/-- A field of a node, with a word for its label. -/
structure Labels (options : LayoutOptions) (field : String × String)
    (labelled : String × Layout) : Prop where
  label : field.1 = labelled.1
  solid : labelled.1.toList.all Text.isSolid = true
  value : Writes options field.2 labelled.2

theorem Labels.stands {field : String × String} {labelled : String × Layout}
    (labels : Labels options field labelled) :
    Stands options (Printer.field options field) (Layout.field labelled) := by
  obtain ⟨label, solid, value⟩ := labels
  have mark : Writes options "=" (plain "=") := .plain (by decide)
  have headed : (tinted .label labelled.1 ++ plain "=").Headed :=
    inked_of_mem (List.mem_cons_of_mem _ List.mem_cons_self) (by decide +kernel)
  rw [Printer.field, label]
  exact Stands.append ⟨(Writes.word solid).append mark, headed⟩ value

theorem Stands.node {name : String} {field : String × String} {fields : List (String × String)}
    {labelled : List (String × Layout)} (solid : name.toList.all Text.isSolid = true)
    (seen : name.toList.all Text.isWhite = false)
    (each : List.Forall₂ (Labels options) (field :: fields) labelled) :
    Stands options (Printer.node options name (field :: fields)) (node name labelled) := by
  have stands : List.Forall₂ (Stands options) ((field :: fields).map (Printer.field options))
      (labelled.map Layout.field) := by
    rw [List.forall₂_map_left_iff, List.forall₂_map_right_iff]
    exact each.imp fun _ _ labels => labels.stands
  have headed : (tinted .node name).Headed := inked_of_mem List.mem_cons_self seen
  exact Stands.append ⟨Writes.word solid, headed⟩ (Writes.inside stands (List.cons_ne_nil _ _))


theorem Labels.of_writes {label : String} {text : String}
    (solid : label.toList.all Text.isSolid = true) (writes : Writes options text layout) :
    Labels options (label, text) (label, layout) :=
  ⟨rfl, solid, writes⟩

/-- The items of a list, each on lines of its own. -/
theorem Writes.list {texts : List String} (each : List.Forall₂ (Stands options) texts layouts) :
    Writes options (Printer.bracketed options "[" "]" texts) (Layout.bracketed "[" "]" layouts) :=
  .bracketed (by decide) (by decide) (by decide) (by decide +kernel) each

end Layout

/-! ### Documents -/

open Layout (Writes Stands Labels)

namespace Printer

theorem writes_scalar (value : Scalar) : Writes options (scalar options value) value.layout := by
  cases value with
  | string text => exact .string text
  | _ => exact .word (Scalar.isSolid_text nofun)

theorem stands_literal (value : Scalar) :
    Stands options (literal options value) value.literalLayout :=
  .node (by decide) (by decide +kernel)
    (.cons (.of_writes (by decide) (writes_scalar value)) .nil)

mutual

/-- What is printed of an expression is the text of its layout. -/
theorem stands_expression : ∀ value : Expression,
    Stands options (expression options value) value.layout
  | .literal value => stands_literal value
  | .array items =>
    .node (by decide) (by decide +kernel)
      (.cons (.of_writes (by decide) (.list (stand_expressions items))) .nil)
  | .object fields =>
    .node (by decide) (by decide +kernel) (.cons (.of_writes (by decide)
      (.bracketed (by decide) (by decide) (by decide) (by decide +kernel) (stand_entries fields)))
      .nil)
  | .call function arguments =>
    .node (by decide) (by decide +kernel) (.cons (.of_writes (by decide) (.string function))
      (.cons (.of_writes (by decide) (.list (stand_expressions arguments))) .nil))
  | .identifier name =>
    .node (by decide) (by decide +kernel) (.cons (.of_writes (by decide) (.string name)) .nil)
  | .getAttr on name =>
    .node (by decide) (by decide +kernel)
      (.cons (.of_writes (by decide) (stands_expression on).toWrites)
        (.cons (.of_writes (by decide) (.string name)) .nil))
  | .getIndex on index =>
    .node (by decide) (by decide +kernel)
      (.cons (.of_writes (by decide) (stands_expression on).toWrites)
        (.cons (.of_writes (by decide) (stands_literal index).toWrites) .nil))
  | .attrSplat on | .indexSplat on =>
    .node (by decide) (by decide +kernel)
      (.cons (.of_writes (by decide) (stands_expression on).toWrites) .nil)
  | .unary op operand =>
    .node (by decide) (by decide +kernel) (.cons (.of_writes (by decide) (.string op.symbol))
      (.cons (.of_writes (by decide) (stands_expression operand).toWrites) .nil))
  | .binary op left right =>
    .node (by decide) (by decide +kernel) (.cons (.of_writes (by decide) (.string op.symbol))
      (.cons (.of_writes (by decide) (stands_expression left).toWrites)
        (.cons (.of_writes (by decide) (stands_expression right).toWrites) .nil)))

theorem stand_expressions : ∀ items : List Expression,
    List.Forall₂ (Stands options) (expressions options items) (Expression.layoutAll items)
  | [] => .nil
  | item :: rest => .cons (stands_expression item) (stand_expressions rest)

theorem stand_entries : ∀ fields : List (String × Expression),
    List.Forall₂ (Stands options) (entries options fields) (Expression.layoutFields fields)
  | [] => .nil
  | (key, value) :: rest => by
    have colon : Writes options ": " (Layout.plain ": ") := .plain (by decide)
    have headed : (Layout.string key).Headed :=
      Layout.inked_of_mem List.mem_cons_self (Text.white_quote key)
    have entry : Stands options (string options key ++ ": ") (Layout.string key ++ .plain ": ") :=
      .append ⟨.string key, headed⟩ colon
    exact .cons (entry.append (stands_expression value).toWrites) (stand_entries rest)

end

mutual

/-- What is printed of a statement is the text of its layout. -/
theorem stands_statement : ∀ value : Statement,
    Stands options (statement options value) value.layout
  | .assign key value =>
    .node (by decide) (by decide +kernel) (.cons (.of_writes (by decide) (.string key))
      (.cons (.of_writes (by decide) (stands_expression value).toWrites) .nil))
  | .block name labels body =>
    .node (by decide) (by decide +kernel) (.cons (.of_writes (by decide) (.string name))
      (.cons (.of_writes (by decide) (.list (stand_expressions labels)))
        (.cons (.of_writes (by decide) (.list (stand_statements body))) .nil)))

theorem stand_statements : ∀ values : List Statement,
    List.Forall₂ (Stands options) (statements options values) (Statement.layoutAll values)
  | [] => .nil
  | value :: rest => .cons (stands_statement value) (stand_statements rest)

end

theorem stands_document (value : Document) :
    Stands options (document options value) value.layout :=
  .node (by decide) (by decide +kernel)
    (.cons (.of_writes (by decide) (.list (stand_statements value.body))) .nil)

end Printer

/-- Put together from texts, a node is printed as its layout is rendered, with and without colors
and with every indentation. -/
theorem Node.render_layout_eq_print (options : LayoutOptions) (node : Node) :
    node.layout.render options = node.print options := by
  cases node with
  | document value => exact (Printer.stands_document value).render
  | statement value => exact (Printer.stands_statement value).render
  | literal value => exact (Printer.stands_literal value).render
  | expression value => exact (Printer.stands_expression value).render

/-- A node of several fields takes one line if its fields do. -/
example : (Node.expression (.getAttr (.identifier "foo") "bar")).print {} =
    "GetAttr(on=Identifier(name=\"foo\"), name=\"bar\")" := by
  decide +kernel

end ConfigLang
