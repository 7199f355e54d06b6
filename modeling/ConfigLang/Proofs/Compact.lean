import ConfigLang.Proofs.Printed
/-!
Printed texts without their blanks. Outside of quotes spaces and line feeds only lay a text out, and
what is left of it without them depends neither on where its lines break nor on how they are
indented.
-/

set_option autoImplicit false

namespace ConfigLang

/-! ### Blanks -/

/-- Where a character of a printed text stands. -/
inductive Quoting where
  | outside
  | inside
  /-- In quotes, behind a backslash. -/
  | escaped
deriving DecidableEq

namespace Quoting

def after : Quoting → Char → Quoting
  | outside, char => if char = '"' then inside else outside
  | inside, char => if char = '"' then outside else if char = '\\' then escaped else inside
  | escaped, _ => inside

/-- Where a text goes on. -/
def behind (quoting : Quoting) (text : List Char) : Quoting :=
  text.foldl after quoting

/-- Whether the character only lays the text out. -/
def isBlank (quoting : Quoting) (char : Char) : Bool :=
  quoting = outside && (char = ' ' || char = '\n')

/-- The text without the blanks that lay it out. -/
def squeeze (quoting : Quoting) : List Char → List Char
  | [] => []
  | char :: rest =>
    if quoting.isBlank char then squeeze (quoting.after char) rest
    else char :: squeeze (quoting.after char) rest

theorem squeeze_append (quoting : Quoting) (first second : List Char) :
    quoting.squeeze (first ++ second) =
      quoting.squeeze first ++ (quoting.behind first).squeeze second := by
  induction first generalizing quoting with
  | nil => rfl
  | cons char first ih =>
      rw [List.cons_append, squeeze, squeeze, ih]
      split
      · rfl
      · rfl

theorem behind_append (quoting : Quoting) (first second : List Char) :
    quoting.behind (first ++ second) = (quoting.behind first).behind second :=
  List.foldl_append

/-- From one place in quotes or outside to another, the text has nothing that only lays it out. -/
structure Keeps (quoting : Quoting) (text : List Char) (last : Quoting) : Prop where
  squeeze : quoting.squeeze text = text
  behind : quoting.behind text = last

namespace Keeps

variable {quoting between last : Quoting} {text more : List Char}

theorem nil : Keeps quoting [] quoting :=
  ⟨rfl, rfl⟩

theorem cons {char : Char} (seen : quoting.isBlank char = false)
    (rest : Keeps (quoting.after char) text last) : Keeps quoting (char :: text) last where
  squeeze := by
    rw [Quoting.squeeze, seen, rest.squeeze]
    rfl
  behind := rest.behind

theorem append (first : Keeps quoting text between) (second : Keeps between more last) :
    Keeps quoting (text ++ more) last where
  squeeze := by rw [squeeze_append, first.behind, first.squeeze, second.squeeze]
  behind := by rw [behind_append, first.behind, second.behind]

theorem solid (solid : ∀ char ∈ text, Text.isSolid char = true) : Keeps outside text outside := by
  induction text with
  | nil => exact nil
  | cons char text ih =>
      obtain ⟨first, rest⟩ := List.forall_mem_cons.mp solid
      simp only [Text.isSolid, Bool.and_eq_true, decide_eq_true_eq] at first
      have stays : outside.after char = outside := if_neg first.2
      refine cons ?_ (by rw [stays]; exact ih rest)
      rw [isBlank, decide_eq_true rfl, Bool.true_and, Bool.or_eq_false_iff,
        decide_eq_false_iff_not, decide_eq_false_iff_not]
      constructor
      · rintro rfl
        exact absurd first.1.1 (by decide)
      · rintro rfl
        exact absurd first.1.1 (by decide)

theorem inner (plain : ∀ char ∈ text, char ≠ '"' ∧ char ≠ '\\') : Keeps inside text inside := by
  induction text with
  | nil => exact nil
  | cons char text ih =>
      obtain ⟨first, rest⟩ := List.forall_mem_cons.mp plain
      have stays : inside.after char = inside := by
        rw [after, if_neg first.1, if_neg first.2]
      exact cons rfl (by rw [stays]; exact ih rest)

theorem escapes {char : Char} (escapes : Text.Escapes char text) : Keeps inside text inside := by
  cases escapes with
  | letter => exact cons rfl (cons rfl nil)
  | plain _ quote backslash => exact inner (List.forall_mem_singleton.mpr ⟨quote, backslash⟩)
  | number =>
      have digits : ∀ digit ∈ Text.hexadecimal char.toNat, digit ≠ '"' ∧ digit ≠ '\\' := by
        intro digit member
        obtain ⟨solid, backslash, -⟩ := Text.isSolid_of_mem_hexadecimal member
        simp only [Text.isSolid, Bool.and_eq_true, decide_eq_true_eq] at solid
        exact ⟨solid.2, backslash⟩
      have brace : Keeps inside ['\x7d'] inside := cons rfl nil
      exact cons rfl (cons rfl (cons rfl ((inner digits).append brace)))

theorem quoteChars (contents : List Char) : Keeps outside (Text.quoteChars contents) outside := by
  have inside : Keeps inside (contents.flatMap Text.escape) inside := by
    induction contents with
    | nil => exact nil
    | cons char rest ih =>
        rw [List.flatMap_cons]
        exact (escapes (Text.escapes_escape char)).append ih
  exact cons rfl (inside.append (cons rfl nil))

end Keeps

end Quoting

/-! ### Layouts without blanks -/

open Quoting (outside squeeze_append behind_append)

/-- A piece without the blanks that lay it out. -/
def Piece.compact (piece : Piece) : List Char :=
  outside.squeeze piece.text.toList

theorem Piece.Printed.balanced {piece : Piece} (printed : piece.Printed) :
    outside.behind piece.text.toList = outside := by
  cases printed with
  | @mark text known =>
      have each : ∀ text ∈ Piece.marks, outside.behind text.toList = outside := by decide
      exact each text known
  | word solid => exact (Quoting.Keeps.solid (List.all_eq_true.mp solid)).behind
  | quoted =>
      rw [Text.quote, String.toList_ofList]
      exact (Quoting.Keeps.quoteChars _).behind

namespace Layout

variable {left right layout : Layout} {layouts : List Layout} {pieces : List Piece}

/-- What is left of a layout without its blanks. -/
def compact (layout : Layout) : List Char :=
  layout.pieces.flatMap Piece.compact

/-- What is left of lines without their blanks. -/
def compactLines (lines : List Line) : List Char :=
  (lines.flatMap Line.pieces).flatMap Piece.compact

theorem squeeze_pieces (printed : ∀ piece ∈ pieces, piece.Printed) :
    outside.squeeze (pieces.flatMap (Piece.chars false)) = pieces.flatMap Piece.compact ∧
      outside.behind (pieces.flatMap (Piece.chars false)) = outside := by
  induction pieces with
  | nil => exact ⟨rfl, rfl⟩
  | cons piece pieces ih =>
      obtain ⟨first, others⟩ := List.forall_mem_cons.mp printed
      obtain ⟨squeeze, behind⟩ := ih others
      have chars : piece.chars false = piece.text.toList := rfl
      rw [List.flatMap_cons, List.flatMap_cons, squeeze_append, behind_append, chars,
        first.balanced, squeeze, behind]
      exact ⟨rfl, rfl⟩

theorem squeeze_indent (count : Nat) (text : List Char) :
    outside.squeeze ('\n' :: (List.replicate count ' ' ++ text)) = outside.squeeze text ∧
      outside.behind ('\n' :: (List.replicate count ' ' ++ text)) = outside.behind text := by
  induction count with
  | zero => exact ⟨rfl, rfl⟩
  | succ count ih => exact ih

/-- A line keeps what is printed in it, however deep it is indented. -/
theorem squeeze_lines {lines : List Line} (indent : Nat)
    (printed : ∀ piece ∈ lines.flatMap Line.pieces, piece.Printed) :
    outside.squeeze (lines.flatMap (Line.chars ⟨false, indent⟩)) = compactLines lines := by
  unfold compactLines
  induction lines with
  | nil => rfl
  | cons line lines ih =>
      rw [List.flatMap_cons] at printed
      obtain ⟨first, others⟩ := List.forall_mem_append.mp printed
      obtain ⟨squeeze, behind⟩ := squeeze_pieces first
      obtain ⟨indented, same⟩ := squeeze_indent (line.depth * indent)
        (line.pieces.flatMap (Piece.chars false))
      have ends : outside.behind (line.chars ⟨false, indent⟩) = outside := same.trans behind
      rw [List.flatMap_cons, List.flatMap_cons, List.flatMap_append, squeeze_append, ends,
        ih others, ← squeeze, ← indented]
      rfl

/-- Without its blanks a printed text depends neither on the indentation nor on where lines break. -/
theorem squeeze_render (indent : Nat) (printed : layout.Printed) :
    outside.squeeze (layout.render ⟨false, indent⟩).toList = layout.compact := by
  obtain ⟨first, others⟩ := List.forall_mem_append.mp printed
  obtain ⟨squeeze, behind⟩ := squeeze_pieces first
  rw [toList_render, squeeze_append, squeeze, behind, squeeze_lines indent others, compactLines,
    ← List.flatMap_append]
  rfl

/-! ### What is left of a node -/

@[simp] theorem compact_plain (text : String) :
    (plain text).compact = outside.squeeze text.toList :=
  List.append_nil _

@[simp] theorem compact_append : (left ++ right).compact = left.compact ++ right.compact := by
  rw [compact, pieces_append, List.flatMap_append]
  rfl

@[simp] theorem compact_tinted (tint : Tint) (text : String) :
    (tinted tint text).compact = outside.squeeze text.toList :=
  List.append_nil _

theorem compact_string (text : String) : (string text).compact = Text.quoteChars text.toList := by
  rw [string, compact_tinted, Text.quote, String.toList_ofList]
  exact (Quoting.Keeps.quoteChars _).squeeze

theorem compactLines_append (first second : List Line) :
    compactLines (first ++ second) = compactLines first ++ compactLines second := by
  simp only [compactLines, List.flatMap_append]

theorem compactLines_indented : compactLines layout.indented = layout.compact := by
  rw [compactLines, flatMap_indented]
  rfl

theorem compactLines_flatMap {α : Type} (lines : α → List Line) (items : List α) :
    compactLines (items.flatMap lines) = items.flatMap fun item => compactLines (lines item) := by
  simp only [compactLines, List.flatMap_assoc]

/-- Lines of their own between two marks. -/
theorem compact_enclosed (opening closing : String) (lines : List Line) :
    (Layout.mk [⟨none, opening⟩] (lines ++ [⟨0, [⟨none, closing⟩]⟩])).compact =
      outside.squeeze opening.toList ++ (compactLines lines ++ outside.squeeze closing.toList) := by
  rw [compact, pieces_lines, List.flatMap_append, List.flatMap_append, List.flatMap_append]
  simp [Piece.compact, compactLines]

/-- Items in brackets, each with a comma. -/
theorem compact_bracketed {opening closing : String}
    (apart : outside.squeeze (opening ++ closing).toList =
      outside.squeeze opening.toList ++ outside.squeeze closing.toList) :
    (bracketed opening closing layouts).compact =
      outside.squeeze opening.toList ++ (layouts.flatMap (fun layout => layout.compact ++ [',']) ++
        outside.squeeze closing.toList) := by
  unfold bracketed
  split
  next none =>
    rw [List.isEmpty_iff.mp none, compact_plain, apart]
    rfl
  next =>
    rw [compact_enclosed, compactLines_flatMap]
    simp only [compactLines_indented, compact_append]
    rfl

/-- A field with its label. -/
def compactField (field : String × Layout) : List Char :=
  outside.squeeze field.1.toList ++ '=' :: field.2.compact

/-- Fields with a comma between two. -/
def compactFields (fields : List (String × Layout)) : List Char :=
  [','].intercalate (fields.map compactField)

theorem compact_separated : (separated (plain ", ") layouts).compact =
    [','].intercalate (layouts.map compact) := by
  have comma : (plain ", ").compact = [','] := rfl
  induction layouts with
  | nil => rfl
  | cons layout rest ih =>
      cases rest with
      | nil => simp [separated]
      | cons next rest =>
          rw [separated, compact_append, compact_append, ih, comma]
          exact List.intercalate_cons_cons.symm

theorem compactLines_stacked :
    compactLines (stacked layouts) = [','].intercalate (layouts.map compact) := by
  have comma : (plain ",").compact = [','] := rfl
  induction layouts with
  | nil => rfl
  | cons layout rest ih =>
      cases rest with
      | nil => simp [stacked, compactLines_indented]
      | cons next rest =>
          rw [stacked, compactLines_append, compactLines_indented, compact_append, ih, comma]
          exact List.intercalate_cons_cons.symm

theorem compact_inside : (inside layouts).compact =
    '(' :: ([','].intercalate (layouts.map compact) ++ [')']) := by
  unfold inside
  split
  next =>
    rw [compact_enclosed, compactLines_stacked]
    rfl
  next =>
    rw [compact_append, compact_append, compact_separated]
    rfl

/-- A node is the same on one line and on several. -/
theorem compact_node (name : String) (fields : List (String × Layout)) :
    (node name fields).compact =
      outside.squeeze name.toList ++ '(' :: (compactFields fields ++ [')']) := by
  have equals : (plain "=").compact = ['='] := rfl
  have labelled : compact ∘ field = compactField := by
    funext labelled
    rw [Function.comp_apply, field, compact_append, compact_append, compact_tinted, equals,
      List.append_assoc]
    rfl
  rw [node_eq, compact_append, compact_tinted, compact_inside, List.map_map, labelled]
  rfl

end Layout

end ConfigLang
