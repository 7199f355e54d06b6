import ConfigLang.Proofs.Printing
import ConfigLang.Proofs.Scanning
/-!
Indentation scales. The spaces that a line begins with are those of its levels and no others, so
that a text printed with one space a level has all that is needed to print it with any other number.
-/

set_option autoImplicit false

namespace ConfigLang

/-! ### Lines and their leading spaces -/

namespace Text

/-- The lines of a text, without the line feeds between them. -/
def lines (text : String) : List (List Char) :=
  text.toList.splitOn '\n'

/-- What is on a line behind its leading spaces. -/
def unindented (line : List Char) : List Char :=
  line.dropWhile (· = ' ')

/-- The line with so many spaces in place of each leading one. -/
def stretch (count : Nat) (line : List Char) : List Char :=
  List.replicate (count * (line.takeWhile (· = ' ')).length) ' ' ++ unindented line

/-- The text with each of its lines stretched. -/
def stretched (count : Nat) (text : String) : String :=
  String.ofList (['\n'].intercalate ((lines text).map (stretch count)))

variable {line : List Char}

/-- Spaces before something else are the leading ones. -/
theorem leading_replicate (count : Nat) (begins : ∀ char ∈ line.head?, char ≠ ' ') :
    (List.replicate count ' ' ++ line).takeWhile (· = ' ') = List.replicate count ' ' ∧
      unindented (List.replicate count ' ' ++ line) = line :=
  Scan.takeWhile_boundary
    (fun _ member => decide_eq_true (List.eq_of_mem_replicate member))
    (fun char first => decide_eq_false (begins char first))

theorem stretch_replicate (count levels : Nat) (begins : ∀ char ∈ line.head?, char ≠ ' ') :
    stretch count (List.replicate levels ' ' ++ line) =
      List.replicate (levels * count) ' ' ++ line := by
  obtain ⟨leading, others⟩ := leading_replicate levels begins
  rw [stretch, leading, List.length_replicate, others, Nat.mul_comm]

end Text

/-! ### Lines of layouts -/

/-- No piece begins with a space: marks and words do not, a quoted text begins with its quote, and a
tinted one with an escape. -/
theorem Piece.Printed.begins {piece : Piece} (printed : piece.Printed) (color : Bool) :
    ∀ char ∈ (piece.chars color).head?, char ≠ ' ' := by
  have tinted (tint : Tint) (text : String) :
      (Piece.chars true ⟨some tint, text⟩).head? = some '\x1b' := by
    simp [chars, render, Tint.opening, String.toList_append]
  have bare (tint : Option Tint) (text : String) :
      Piece.chars false ⟨tint, text⟩ = text.toList := rfl
  cases printed with
  | @mark text known =>
      have each : ∀ text ∈ Piece.marks, text.toList.head? ≠ some ' ' := by
        decide +kernel
      have plain : Piece.chars color ⟨none, text⟩ = text.toList := by
        cases color with
        | true | false => rfl
      rw [plain]
      rintro char first rfl
      exact each text known first
  | @word tint text solid =>
      cases color with
      | true =>
          rw [tinted]
          rintro char ⟨⟩
          decide
      | false =>
          rw [bare]
          rintro char first rfl
          exact absurd (List.all_eq_true.mp solid _ (List.mem_of_mem_head? first)) (by decide)
  | @quoted text =>
      cases color with
      | true =>
          rw [tinted]
          rintro char ⟨⟩
          decide
      | false =>
          rw [bare, Text.quote, String.toList_ofList]
          rintro char ⟨⟩
          decide

namespace Line

variable {line : Line}

/-- What is on a line behind the spaces of its levels. -/
def contents (color : Bool) (line : Line) : List Char :=
  line.pieces.flatMap (Piece.chars color)

theorem contents_begins (printed : ∀ piece ∈ line.pieces, piece.Printed) (color : Bool) :
    ∀ char ∈ (line.contents color).head?, char ≠ ' ' := by
  obtain ⟨depth, pieces⟩ := line
  change ∀ char ∈ (pieces.flatMap (Piece.chars color)).head?, char ≠ ' '
  induction pieces with
  | nil => exact nofun
  | cons piece pieces ih =>
      obtain ⟨first, others⟩ := List.forall_mem_cons.mp printed
      have begins := first.begins color
      rw [List.flatMap_cons]
      cases chars : piece.chars color with
      | nil => exact ih others
      | cons char rest =>
          rw [chars] at begins
          exact begins

/-- With so many spaces a level, a line is the one with a single space a level, stretched. -/
theorem stretch_shown (printed : ∀ piece ∈ line.pieces, piece.Printed) (color : Bool)
    (indent : Nat) : Text.stretch indent (line.shown ⟨color, 1⟩) = line.shown ⟨color, indent⟩ := by
  have begins := contents_begins printed color
  have single : line.shown ⟨color, 1⟩ =
      List.replicate line.depth ' ' ++ line.contents color := by
    rw [shown, Nat.mul_one]
    rfl
  rw [single, Text.stretch_replicate indent line.depth begins]
  rfl

theorem unindented_shown (printed : ∀ piece ∈ line.pieces, piece.Printed)
    (options : LayoutOptions) :
    Text.unindented (line.shown options) = line.contents options.color :=
  (Text.leading_replicate _ (contents_begins printed options.color)).2

theorem feed_notMem_shown (printed : ∀ piece ∈ line.pieces, piece.Printed)
    (options : LayoutOptions) : '\n' ∉ line.shown options := by
  intro member
  rcases List.mem_append.mp member with space | inside
  · exact absurd (List.eq_of_mem_replicate space) (by decide)
  · obtain ⟨piece, among, feed⟩ := List.mem_flatMap.mp inside
    exact absurd ((printed piece among).flat options.color _ feed) (by decide)

end Line

namespace Layout

variable {layout : Layout}

theorem Printed.line (printed : layout.Printed) :
    ∀ line ∈ layout.lines, ∀ piece ∈ line.pieces, piece.Printed := by
  obtain ⟨first, others⟩ := List.forall_mem_append.mp printed
  exact List.forall_mem_cons.mpr ⟨first, List.forall_mem_flatMap.mp others⟩

theorem render_eq_intercalate (options : LayoutOptions) (layout : Layout) :
    (layout.render options).toList =
      ['\n'].intercalate (layout.lines.map (Line.shown options)) := by
  have shown (line : Line) : (line.render options).toList = line.shown options := by
    rw [Line.render, String.toList_append, String.toList_ofList, String.toList_join,
      List.flatMap_map]
    rfl
  rw [render, String.toList_intercalate, List.map_map]
  exact congrArg _ (List.map_congr_left fun line _ => shown line)

/-- The lines of a text are those of the layout: no piece breaks a line. -/
theorem Printed.lines_render (printed : layout.Printed) (options : LayoutOptions) :
    Text.lines (layout.render options) = layout.lines.map (Line.shown options) := by
  rw [Text.lines, render_eq_intercalate]
  refine List.splitOn_intercalate '\n' (List.forall_mem_map.mpr fun line among => ?_)
    (List.cons_ne_nil _ _)
  exact Line.feed_notMem_shown (printed.line line among) options

end Layout

namespace Node

/-- A layout is rendered with so many spaces a level as it is with a single one, stretched. -/
theorem render_stretched (node : Node) (color : Bool) (indent : Nat) :
    node.layout.render ⟨color, indent⟩ =
        Text.stretched indent (node.layout.render ⟨color, 1⟩) ∧
      (Text.lines (node.layout.render ⟨color, indent⟩)).map Text.unindented =
        (Text.lines (node.layout.render ⟨color, 1⟩)).map Text.unindented := by
  have printed := node.printed_layout
  constructor
  · have stretches : ∀ line ∈ node.layout.lines,
        (Text.stretch indent ∘ Line.shown ⟨color, 1⟩) line = line.shown ⟨color, indent⟩ :=
      fun line among => Line.stretch_shown (printed.line line among) color indent
    apply String.toList_inj.mp
    rw [Text.stretched, String.toList_ofList, printed.lines_render, List.map_map,
      List.map_congr_left stretches, Layout.render_eq_intercalate]
  · have behind (options : LayoutOptions) : ∀ line ∈ node.layout.lines,
        (Text.unindented ∘ Line.shown options) line = line.contents options.color :=
      fun line among => Line.unindented_shown (printed.line line among) options
    rw [printed.lines_render, printed.lines_render, List.map_map, List.map_map,
      List.map_congr_left (behind _), List.map_congr_left (behind _)]

/-- Printed with so many spaces a level, a node is what is printed of it with one space a level when
each leading space of a line becomes that many. So it breaks into the same lines, and there is the
same on each of them. -/
theorem print_stretched (node : Node) (color : Bool) (indent : Nat) :
    node.print ⟨color, indent⟩ = Text.stretched indent (node.print ⟨color, 1⟩) ∧
      (Text.lines (node.print ⟨color, indent⟩)).map Text.unindented =
        (Text.lines (node.print ⟨color, 1⟩)).map Text.unindented := by
  rw [← render_layout_eq_print, ← render_layout_eq_print]
  exact node.render_stretched color indent

/-- A string with spaces behind a line feed stays within its line. -/
example : (Node.expression (.array [.literal (.string "\n  ")])).print ⟨false, 3⟩ =
    "Array(values=[\n   Literal(value=\"\\n  \"),\n])" := by
  decide +kernel

end Node

end ConfigLang
