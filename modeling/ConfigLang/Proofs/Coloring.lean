import ConfigLang.Proofs.Printing
/-!
Colors only add escapes. Whatever the printed texts hold, the escapes that turn tints on and off are
told from them, and without the escapes a colored text is the one that is printed without colors.
-/

set_option autoImplicit false

namespace ConfigLang

/-! ### Marks in texts -/

namespace Text

/-- The text without the mark wherever it occurs. Of an occurrence there are still some characters
to drop. -/
def dropMark (mark : List Char) : Nat → List Char → List Char
  | _, [] => []
  | pending + 1, _ :: rest => dropMark mark pending rest
  | 0, char :: rest =>
    if mark <+: char :: rest then dropMark mark (mark.length - 1) rest
    else char :: dropMark mark 0 rest

/-- The text without the mark wherever it occurs, from left to right. -/
def without (text mark : String) : String :=
  String.ofList (dropMark mark.toList 0 text.toList)

/-- Whether the text is none of the marks. -/
def isOther (marks : List String) (text : List Char) : Bool :=
  marks.all fun mark => text ≠ mark.toList

variable {mark rest run : List Char} {first : Char}

theorem dropMark_length (dropped : List Char) :
    dropMark mark dropped.length (dropped ++ rest) = dropMark mark 0 rest := by
  induction dropped with
  | nil => rfl
  | cons char dropped ih => exact ih

/-- An occurrence is dropped as a whole. -/
theorem dropMark_self : dropMark (first :: mark) 0 (first :: mark ++ rest) =
    dropMark (first :: mark) 0 rest := by
  rw [List.cons_append, dropMark, if_pos ⟨rest, rfl⟩]
  exact dropMark_length mark

/-- What does not hold the first character of a mark is kept. -/
theorem dropMark_of_not_mem (absent : first ∉ run) :
    dropMark (first :: mark) 0 (run ++ rest) = run ++ dropMark (first :: mark) 0 rest := by
  induction run with
  | nil => rfl
  | cons char run ih =>
      have begins : ¬ first :: mark <+: char :: (run ++ rest) := fun occurs =>
        List.ne_of_not_mem_cons absent (List.cons_prefix_cons.mp occurs).1
      rw [List.cons_append, dropMark, if_neg begins, ih (List.not_mem_of_not_mem_cons absent),
        List.cons_append]

end Text

/-! ### Escapes -/

namespace Tint

/-- All that colors write. -/
def escapes : List String :=
  [node.opening, label.opening, quoted.opening, closing]

/-- An escape begins with a character that it does not hold again. -/
theorem escapes_cons : ∀ escape ∈ escapes, ∃ rest,
    escape.toList = '\x1b' :: rest ∧ '\x1b' ∉ rest := by
  have each : ∀ escape ∈ escapes,
      escape.toList = '\x1b' :: escape.toList.tail ∧ '\x1b' ∉ escape.toList.tail := by
    decide +kernel
  exact fun escape known => ⟨_, each escape known⟩

/-- No escape begins another one. -/
theorem eq_of_begins : ∀ escape ∈ escapes, ∀ other ∈ escapes,
    escape.toList <+: other.toList → escape = other := by
  decide +kernel

/-- Whatever follows an escape, only the escape itself occurs where it begins. -/
theorem not_prefix {escape other : String} (known : escape ∈ escapes) (known' : other ∈ escapes)
    (differs : other ≠ escape) (rest : List Char) :
    ¬ escape.toList <+: other.toList ++ rest := by
  intro occurs
  rcases List.prefix_or_prefix_of_prefix occurs (List.prefix_append _ _) with before | before
  · exact differs (eq_of_begins escape known other known' before).symm
  · exact differs (eq_of_begins other known' escape known before)

/-- A part of a colored text: an escape, or a text without escapes. -/
def Colors (run : List Char) : Prop :=
  run ∈ escapes.map String.toList ∨ '\x1b' ∉ run

theorem isOther_of_not_mem {run : List Char} (plain : '\x1b' ∉ run) :
    Text.isOther escapes run = true := by
  rw [Text.isOther, List.all_eq_true]
  intro escape known
  obtain ⟨rest, chars, -⟩ := escapes_cons escape known
  refine decide_eq_true fun same => plain ?_
  rw [same, chars]
  exact List.mem_cons_self

theorem dropMark_cons {escape : String} {run rest : List Char} (known : escape ∈ escapes)
    (colors : Colors run) : Text.dropMark escape.toList 0 (run ++ rest) =
      if run = escape.toList then Text.dropMark escape.toList 0 rest
      else run ++ Text.dropMark escape.toList 0 rest := by
  obtain ⟨mark, chars, -⟩ := escapes_cons escape known
  split
  next same => rw [same, chars, Text.dropMark_self]
  next differs =>
    rcases colors with among | plain
    · -- The escape is not another one's beginning, and begins nowhere within it.
      obtain ⟨other, known', rfl⟩ := List.mem_map.mp among
      obtain ⟨body, chars', absent⟩ := escapes_cons other known'
      have occurs := not_prefix known known' (fun same => differs (by rw [same])) rest
      rw [chars', List.cons_append] at occurs ⊢
      rw [Text.dropMark, if_neg occurs, chars, Text.dropMark_of_not_mem absent, List.cons_append]
    · rw [chars, Text.dropMark_of_not_mem plain]

/-- Of a text in parts, the parts are dropped that are the escape. -/
theorem dropMark_flatten {escape : String} {runs : List (List Char)} (known : escape ∈ escapes)
    (colors : ∀ run ∈ runs, Colors run) : Text.dropMark escape.toList 0 runs.flatten =
      (runs.filter (· ≠ escape.toList)).flatten := by
  induction runs with
  | nil => rfl
  | cons run runs ih =>
      obtain ⟨first, others⟩ := List.forall_mem_cons.mp colors
      rw [List.flatten_cons, dropMark_cons known first, ih others, List.filter_cons]
      by_cases same : run = escape.toList
      · simp [same]
      · simp [same]

/-- One escape after the other is dropped, in whatever order. -/
theorem foldl_without {order : List String} {text : String} {runs : List (List Char)}
    (known : ∀ escape ∈ order, escape ∈ escapes) (colors : ∀ run ∈ runs, Colors run)
    (parts : text.toList = runs.flatten) : (order.foldl Text.without text).toList =
      (runs.filter (Text.isOther order)).flatten := by
  induction order generalizing text runs with
  | nil =>
      rw [List.foldl_nil, parts, List.filter_eq_self.mpr]
      exact fun run _ => rfl
  | cons escape order ih =>
      obtain ⟨first, others⟩ := List.forall_mem_cons.mp known
      have dropped : (Text.without text escape).toList =
          (runs.filter (· ≠ escape.toList)).flatten := by
        rw [Text.without, String.toList_ofList, parts, dropMark_flatten first colors]
      rw [List.foldl_cons, ih others (fun run member => colors run (List.mem_filter.mp member).1)
        dropped, List.filter_filter]
      congr 2
      funext run
      exact Bool.and_comm _ _

end Tint

/-! ### Colored layouts -/

open Tint (Colors escapes)

/-- A piece in parts: an escape on each side if it is tinted. -/
def Piece.runs (color : Bool) (piece : Piece) : List (List Char) :=
  match color, piece.tint with
  | true, some tint => [tint.opening.toList, piece.text.toList, Tint.closing.toList]
  | _, _ => [piece.text.toList]

theorem Piece.flatten_runs (color : Bool) (piece : Piece) :
    (piece.runs color).flatten = piece.chars color := by
  obtain ⟨tint, text⟩ := piece
  rw [chars]
  cases color with
  | false => exact List.append_nil _
  | true =>
      cases tint with
      | none => exact List.append_nil _
      | some tint => simp [runs, render, String.toList_append]

theorem Piece.Printed.not_mem {piece : Piece} (printed : piece.Printed) :
    '\x1b' ∉ piece.text.toList := fun member =>
  absurd (printed.printable _ member) (by decide +kernel)

theorem Piece.Printed.colors {piece : Piece} (printed : piece.Printed) (color : Bool) :
    ∀ run ∈ piece.runs color, Colors run := by
  have opening (tint : Tint) : tint.opening ∈ escapes := by
    cases tint with
    | node | label | quoted => decide
  have closing : Tint.closing ∈ escapes := by decide
  have plain : Colors piece.text.toList := .inr printed.not_mem
  unfold Piece.runs
  split
  next tint _ =>
    exact List.forall_mem_cons.mpr ⟨.inl (List.mem_map_of_mem (opening tint)),
      List.forall_mem_cons.mpr ⟨plain,
        List.forall_mem_singleton.mpr (.inl (List.mem_map_of_mem closing))⟩⟩
  next => exact List.forall_mem_singleton.mpr plain

/-- The escapes are what is added to a piece. -/
theorem Piece.Printed.filter_runs {piece : Piece} (printed : piece.Printed) :
    (piece.runs true).filter (Text.isOther escapes) = piece.runs false := by
  have opening (tint : Tint) : Text.isOther escapes tint.opening.toList = false := by
    cases tint with
    | node | label | quoted => decide +kernel
  have closing : Text.isOther escapes Tint.closing.toList = false := by decide +kernel
  have plain := Tint.isOther_of_not_mem printed.not_mem
  obtain ⟨tint, text⟩ := piece
  cases tint with
  | none => exact List.filter_cons_of_pos plain
  | some tint => simp only [runs, List.filter_cons, opening, plain, closing]; rfl

/-- A line in parts. -/
def Line.runs (options : LayoutOptions) (line : Line) : List (List Char) :=
  ['\n'] :: List.replicate (line.depth * options.indent) ' ' ::
    line.pieces.flatMap (Piece.runs options.color)

namespace Layout

variable {layout : Layout} {pieces : List Piece}

/-- A layout in parts. -/
def runs (options : LayoutOptions) (layout : Layout) : List (List Char) :=
  layout.first.flatMap (Piece.runs options.color) ++
    layout.others.flatMap (Line.runs options)

theorem flatten_runs_pieces (color : Bool) :
    (pieces.flatMap (Piece.runs color)).flatten = pieces.flatMap (Piece.chars color) := by
  induction pieces with
  | nil => rfl
  | cons piece pieces ih =>
      rw [List.flatMap_cons, List.flatten_append, ih, piece.flatten_runs, List.flatMap_cons]

theorem flatten_runs (options : LayoutOptions) (layout : Layout) :
    (layout.render options).toList = (layout.runs options).flatten := by
  have lines (lines : List Line) : (lines.flatMap (Line.runs options)).flatten =
      lines.flatMap (Line.chars options) := by
    induction lines with
    | nil => rfl
    | cons line lines ih =>
        rw [List.flatMap_cons, List.flatten_append, ih, List.flatMap_cons, Line.runs,
          List.flatten_cons, List.flatten_cons, flatten_runs_pieces]
        rfl
  rw [toList_render, runs, List.flatten_append, flatten_runs_pieces, lines]

theorem colors_runs {options : LayoutOptions} (printed : layout.Printed) :
    ∀ run ∈ layout.runs options, Colors run := by
  have feed : Colors ['\n'] := .inr (by decide)
  have spaces (count : Nat) : Colors (List.replicate count ' ') :=
    .inr fun member => absurd (List.eq_of_mem_replicate member) (by decide)
  obtain ⟨first, others⟩ := List.forall_mem_append.mp printed
  refine List.forall_mem_append.mpr ⟨?_, ?_⟩
  · exact List.forall_mem_flatMap.mpr fun piece member => (first piece member).colors _
  · refine List.forall_mem_flatMap.mpr fun line among => List.forall_mem_cons.mpr ⟨feed,
      List.forall_mem_cons.mpr ⟨spaces _, List.forall_mem_flatMap.mpr fun piece member => ?_⟩⟩
    exact (List.forall_mem_flatMap.mp others line among piece member).colors _

theorem filter_runs_pieces (printed : ∀ piece ∈ pieces, piece.Printed) :
    (pieces.flatMap (Piece.runs true)).filter (Text.isOther escapes) =
      pieces.flatMap (Piece.runs false) := by
  induction pieces with
  | nil => rfl
  | cons piece pieces ih =>
      obtain ⟨first, others⟩ := List.forall_mem_cons.mp printed
      rw [List.flatMap_cons, List.filter_append, first.filter_runs, ih others, List.flatMap_cons]

/-- The parts that colors add are the escapes. -/
theorem filter_runs (indent : Nat) (printed : layout.Printed) :
    (layout.runs ⟨true, indent⟩).filter (Text.isOther escapes) =
      layout.runs ⟨false, indent⟩ := by
  have line {line : Line} (printed : ∀ piece ∈ line.pieces, piece.Printed) :
      (line.runs ⟨true, indent⟩).filter (Text.isOther escapes) =
        line.runs ⟨false, indent⟩ := by
    have spaces : '\x1b' ∉ List.replicate (line.depth * indent) ' ' := fun member =>
      absurd (List.eq_of_mem_replicate member) (by decide)
    rw [Line.runs, List.filter_cons_of_pos (Tint.isOther_of_not_mem (by decide)),
      List.filter_cons_of_pos (Tint.isOther_of_not_mem spaces), filter_runs_pieces printed]
    rfl
  have lines {lines : List Line} (printed : ∀ piece ∈ lines.flatMap Line.pieces, piece.Printed) :
      (lines.flatMap (Line.runs ⟨true, indent⟩)).filter (Text.isOther escapes) =
        lines.flatMap (Line.runs ⟨false, indent⟩) := by
    induction lines with
    | nil => rfl
    | cons next lines ih =>
        rw [List.flatMap_cons, List.forall_mem_append] at printed
        rw [List.flatMap_cons, List.filter_append, line printed.1, ih printed.2,
          List.flatMap_cons]
  obtain ⟨first, others⟩ := List.forall_mem_append.mp printed
  rw [runs, List.filter_append, filter_runs_pieces first, lines others, runs]

end Layout

namespace Node

/-- A layout is rendered with colors as it is without them but for the escapes. -/
theorem without_escapes_render (node : Node) (indent : Nat) {order : List String}
    (all : order.Perm escapes) :
    order.foldl Text.without (node.layout.render ⟨true, indent⟩) =
      node.layout.render ⟨false, indent⟩ := by
  have printed := node.printed_layout
  have known : ∀ escape ∈ order, escape ∈ escapes := fun escape => all.mem_iff.mp
  have same : Text.isOther order = Text.isOther escapes := funext fun run => all.all_eq
  apply String.toList_inj.mp
  rw [Tint.foldl_without known (Layout.colors_runs printed) (Layout.flatten_runs _ _), same,
    Layout.filter_runs indent printed, ← Layout.flatten_runs]

/-- With colors on, a node is printed as it is without colors but for the escapes: without these,
in whatever order they are dropped, the two texts are the same. -/
theorem without_escapes_print (node : Node) (indent : Nat) {order : List String}
    (all : order.Perm escapes) :
    order.foldl Text.without (node.print ⟨true, indent⟩) = node.print ⟨false, indent⟩ := by
  rw [← render_layout_eq_print, ← render_layout_eq_print, without_escapes_render node indent all]

/-- Strings that hold escapes and line feeds are quoted, and are not taken for colors. -/
theorem without_escapes_print_quoted :
    let node : Node := .statement (.assign "\x1b[34m" (.array [.literal (.string "\x1b[0m\n")]))
    escapes.reverse.Perm escapes ∧
      escapes.reverse.foldl Text.without (node.print ⟨true, 1⟩) = node.print ⟨false, 1⟩ ∧
      node.print ⟨false, 1⟩ = "Attribute(\n key=\"\\u\x7b1b\x7d[34m\",\n" ++
        " value=Array(values=[\n  Literal(value=\"\\u\x7b1b\x7d[0m\\n\"),\n ])\n)" := by
  intro node
  exact ⟨List.reverse_perm _, without_escapes_print node 1 (List.reverse_perm _),
    by decide +kernel⟩

end Node

end ConfigLang
