import ConfigLang.Proofs.Compact
import ConfigLang.Proofs.Printing
/-!
No two documents are printed alike, whatever the indentation. Read from left to right, what is left
of a printed text without its blanks tells the node that it was printed from.
-/

set_option autoImplicit false

namespace ConfigLang

/-- Where two texts go on alike, they mean the same, and what follows them is the same. -/
def Tells (left right : List Char) (Same : Prop) : Prop :=
  ∀ ⦃rest rest' : List Char⦄, left ++ rest = right ++ rest' → Same ∧ rest = rest'

namespace Tells

variable {left left' right right' : List Char} {Same Same' : Prop}

theorem refl (text : List Char) : Tells text text True :=
  fun _ _ equal => ⟨trivial, List.append_cancel_left equal⟩

theorem imp (tells : Tells left right Same) (implies : Same → Same') : Tells left right Same' :=
  fun _ _ equal => (tells equal).imp_left implies

theorem append (first : Tells left right Same) (second : Same → Tells left' right' Same') :
    Tells (left ++ left') (right ++ right') (Same ∧ Same') := by
  intro rest rest' equal
  rw [List.append_assoc, List.append_assoc] at equal
  obtain ⟨same, equal⟩ := first equal
  obtain ⟨same', equal⟩ := second same equal
  exact ⟨⟨same, same'⟩, equal⟩

/-- The same beginning says nothing. -/
theorem behind (text : List Char) (tells : Tells left right Same) :
    Tells (text ++ left) (text ++ right) Same :=
  ((refl text).append fun _ => tells).imp And.right

/-- The same end says nothing. -/
theorem before (tells : Tells left right Same) (text : List Char) :
    Tells (left ++ text) (right ++ text) Same :=
  (tells.append fun _ => refl text).imp And.left

/-- Up to a character that is in neither of them, texts tell themselves. -/
theorem upTo {char : Char} (first : char ∉ left) (second : char ∉ right) :
    Tells (left ++ [char]) (right ++ [char]) (left = right) := by
  intro rest rest' equal
  simp only [List.append_assoc, List.singleton_append] at equal
  induction left generalizing right with
  | nil =>
      cases right with
      | nil => exact ⟨rfl, (List.cons.inj equal).2⟩
      | cons other right =>
          obtain ⟨rfl, -⟩ := List.cons.inj equal
          exact absurd List.mem_cons_self second
  | cons other left ih =>
      cases right with
      | nil =>
          obtain ⟨rfl, -⟩ := List.cons.inj equal
          exact absurd List.mem_cons_self first
      | cons other' right =>
          obtain ⟨rfl, tails⟩ := List.cons.inj equal
          obtain ⟨rfl, others⟩ := ih (List.not_mem_of_not_mem_cons first)
            (List.not_mem_of_not_mem_cons second) tails
          exact ⟨rfl, others⟩

/-- Texts that begin differently do not go on alike. -/
theorem of_ne {char char' : Char} (other : char ≠ char') :
    Tells (char :: left) (char' :: right) Same :=
  fun _ _ equal => absurd (List.cons.inj equal).1 other

/-- Items up to a character that none of them begins with. -/
theorem list {α : Type} {chars : α → List Char} {closing : Char} {items others : List α}
    (begins : ∀ item, ∃ first rest, chars item = first :: rest ∧ first ≠ closing)
    (each : ∀ item ∈ items, ∀ other ∈ others, Tells (chars item) (chars other) (item = other)) :
    Tells (items.flatMap chars ++ [closing]) (others.flatMap chars ++ [closing])
      (items = others) := by
  induction items generalizing others with
  | nil =>
      cases others with
      | nil => exact (refl _).imp fun _ => rfl
      | cons other others =>
          obtain ⟨first, rest, chars, differs⟩ := begins other
          rw [List.flatMap_cons, chars]
          exact of_ne differs.symm
  | cons item items ih =>
      obtain ⟨tells, each⟩ := List.forall_mem_cons.mp each
      cases others with
      | nil =>
          obtain ⟨first, rest, chars, differs⟩ := begins item
          rw [List.flatMap_cons, chars]
          exact of_ne differs
      | cons other others =>
          rw [List.flatMap_cons, List.flatMap_cons, List.append_assoc, List.append_assoc]
          obtain ⟨first, -⟩ := List.forall_mem_cons.mp tells
          refine (first.append fun _ => ih fun item member other among => ?_).imp ?_
          · exact each item member other (List.mem_cons_of_mem _ among)
          · rintro ⟨rfl, rfl⟩
            rfl

end Tells

/-! ### Scalars -/

namespace Text

theorem hexadecimal_injective {number other : Nat} (same : hexadecimal number = hexadecimal other) :
    number = other := by
  have digit : ∀ number < 16, ∀ other < 16,
      Nat.digitChar number = Nat.digitChar other → number = other := by
    decide
  unfold hexadecimal at same
  have base : 1 < 16 := by decide
  induction number using Nat.strongRecOn generalizing other with
  | ind number ih =>
      rw [Nat.toDigits_eq_if base, Nat.toDigits_eq_if (n := other) base] at same
      split at same
      next small =>
        split at same
        next small' => exact digit number small other small' (List.cons.inj same).1
        next large =>
          have longer := congrArg List.length same
          have some := List.length_pos_iff.mpr (Nat.toDigits_ne_nil (n := other / 16) (b := 16))
          simp only [List.length_append, List.length_singleton] at longer
          omega
      next large =>
        split at same
        next small' =>
          have longer := congrArg List.length same
          have some := List.length_pos_iff.mpr (Nat.toDigits_ne_nil (n := number / 16) (b := 16))
          simp only [List.length_append, List.length_singleton] at longer
          omega
        next large' =>
          obtain ⟨front, last⟩ := List.append_inj' same rfl
          have quotient := ih (number / 16) (Nat.div_lt_self (by omega) base) front
          have remainder := digit (number % 16) (Nat.mod_lt _ (by decide)) (other % 16)
            (Nat.mod_lt _ (by decide)) (List.cons.inj last).1
          omega

theorem Escapes.begins {char : Char} {chars : List Char} (escapes : Escapes char chars) :
    ∃ first rest, chars = first :: rest ∧ first ≠ '"' := by
  cases escapes with
  | plain _ quote => exact ⟨char, [], rfl, quote⟩
  | letter | number => exact ⟨'\\', _, rfl, by decide⟩

/-- How two characters are written in quotes tells them, whatever is behind them. -/
theorem Escapes.tells {char other : Char} {chars chars' : List Char}
    (escapes : Escapes char chars) (escapes' : Escapes other chars') :
    Tells chars chars' (char = other) := by
  have never : ∀ pair ∈ letters, pair.1 ≠ 'u' := by decide
  have each : ∀ pair ∈ letters, ∀ pair' ∈ letters, pair.1 = pair'.1 → pair.2 = pair'.2 := by decide
  cases escapes with
  | letter known =>
      cases escapes' with
      | letter known' =>
          intro rest rest' equal
          obtain ⟨same, others⟩ := List.cons.inj (List.cons.inj equal).2
          exact ⟨each _ known _ known' same, others⟩
      | plain _ _ backslash => exact .of_ne backslash.symm
      | number => exact .behind ['\\'] (.of_ne (never _ known))
  | plain _ _ backslash =>
      cases escapes' with
      | plain =>
          intro rest rest' equal
          exact List.cons.inj equal
      | letter | number => exact .of_ne backslash
  | number =>
      cases escapes' with
      | letter known => exact .behind ['\\'] (.of_ne (never _ known).symm)
      | plain _ _ backslash => exact .of_ne backslash.symm
      | number =>
          have brace {number : Nat} : '\x7d' ∉ hexadecimal number := fun member =>
            (isSolid_of_mem_hexadecimal member).2.2 rfl
          refine .behind ['\\', 'u', '\x7b'] ((Tells.upTo brace brace).imp fun same => ?_)
          exact Char.toNat_inj.mp (hexadecimal_injective same)

theorem tells_quoteChars (contents others : List Char) :
    Tells (quoteChars contents) (quoteChars others) (contents = others) := by
  refine .behind ['"'] (Tells.list (fun char => ?_) fun char _ other _ => ?_)
  · exact (escapes_escape char).begins
  · exact (escapes_escape char).tells (escapes_escape other)

end Text

open Quoting (outside)

namespace Scalar

def isFloatless : Scalar → Bool
  | float _ => false
  | _ => true

variable {value other : Scalar}

/-- The integer that is written with these characters. -/
def integer : List Char → Int
  | '-' :: digits => -(Nat.ofDigitChars 10 digits 0 : Int)
  | digits => (Nat.ofDigitChars 10 digits 0 : Int)

theorem integer_repr (value : Int) : integer value.repr.toList = value := by
  have digits (number : Nat) : number.repr.toList = Nat.toDigits 10 number := by
    rw [Nat.repr_eq_ofList_toDigits, String.toList_ofList]
  rw [Int.repr_eq_if]
  split
  next positive =>
    rw [digits, integer]
    · rw [Nat.ofDigitChars_ten_toDigits, Int.toNat_of_nonneg positive]
    · intro rest same
      have member : '-' ∈ Nat.toDigits 10 value.toNat := by simp [same]
      have digit := Nat.isDigit_of_mem_toDigits (by decide) (by decide) member
      cases digit
  next negative =>
    rw [String.toList_append, digits]
    change -(Nat.ofDigitChars 10 (Nat.toDigits 10 (-value).toNat) 0 : Int) = value
    rw [Nat.ofDigitChars_ten_toDigits, Int.toNat_of_nonneg (by omega)]
    omega

/-- The scalar that is written in this way without quotes, if it is no float. -/
def bare (text : String) : Scalar :=
  if text = "null" then null
  else if text = "true" then bool true
  else if text = "false" then bool false
  else int (Int64.ofInt (integer text.toList))

/-- Keywords have letters that no integer has. -/
theorem text_int_ne {word : Int64} {keyword : String} {letter : Char}
    (first : keyword.toList.head? = some letter) (sign : letter ≠ '-')
    (other : letter.isDigit = false) : (int word).text ≠ keyword := by
  rintro rfl
  have member := List.mem_of_mem_head? (Option.mem_def.mpr first)
  rcases Integer.eq_or_isDigit_of_mem_repr letter member with rfl | digit
  · exact sign rfl
  · rw [digit] at other
    cases other

theorem bare_text (unquoted : ∀ contents, value ≠ .string contents)
    (exact : value.isFloatless = true) : bare value.text = value := by
  cases value with
  | null => rfl
  | bool value =>
      cases value with
      | true | false => rfl
  | int word =>
      have null := @text_int_ne word "null" 'n' rfl (by decide) (by decide)
      have true_ := @text_int_ne word "true" 't' rfl (by decide) (by decide)
      have false_ := @text_int_ne word "false" 'f' rfl (by decide) (by decide)
      have read : integer (int word).text.toList = word.toInt := integer_repr word.toInt
      rw [bare, if_neg null, if_neg true_, if_neg false_, read, Int64.ofInt_toInt]
  | float => cases exact
  | string contents => exact absurd rfl (unquoted contents)

theorem not_mem_text (unquoted : ∀ contents, value ≠ .string contents)
    (exact : value.isFloatless = true) : ')' ∉ value.text.toList := by
  cases value with
  | null => decide
  | bool value =>
      cases value with
      | true | false => decide
  | int word =>
      intro member
      rcases Integer.eq_or_isDigit_of_mem_repr ')' member with sign | digit
      · cases sign
      · cases digit
  | float => cases exact
  | string contents => exact absurd rfl (unquoted contents)

theorem compact_layout (unquoted : ∀ contents, value ≠ .string contents) :
    value.layout.compact = value.text.toList := by
  have solid := List.all_eq_true.mp (isSolid_text unquoted)
  have tinted : value.layout = .tinted .label value.text := by
    cases value with
    | string contents => exact absurd rfl (unquoted contents)
    | _ => rfl
  rw [tinted, Layout.compact_tinted]
  exact (Quoting.Keeps.solid solid).squeeze

/-- What is written without quotes does not begin with one. -/
theorem compact_layout_head (unquoted : ∀ contents, value ≠ .string contents) :
    ∃ first rest, value.layout.compact ++ [')'] = first :: rest ∧ first ≠ '"' := by
  rw [compact_layout unquoted]
  cases text : value.text.toList with
  | nil => exact ⟨')', [], rfl, by decide⟩
  | cons first rest =>
      have solid := List.all_eq_true.mp (isSolid_text unquoted)
      refine ⟨first, rest ++ [')'], rfl, ?_⟩
      rintro rfl
      rw [text] at solid
      exact absurd (solid '"' List.mem_cons_self) (by decide)

/-- Up to the parenthesis behind it a scalar tells itself. A float need not, for different numbers
that are not numbers are written alike. -/
theorem tells_layout (exact : value.isFloatless = true) (exact' : other.isFloatless = true) :
    Tells (value.layout.compact ++ [')']) (other.layout.compact ++ [')']) (value = other) := by
  have begins (contents : String) : (string contents).layout.compact ++ [')'] =
      '"' :: (contents.toList.flatMap Text.escape ++ ['"', ')']) := by
    rw [layout, Layout.compact_string, Text.quoteChars]
    simp
  by_cases quoted : ∃ contents, value = string contents
  · obtain ⟨contents, rfl⟩ := quoted
    by_cases quoted' : ∃ contents, other = string contents
    · obtain ⟨contents', rfl⟩ := quoted'
      rw [layout, layout, Layout.compact_string, Layout.compact_string]
      refine ((Text.tells_quoteChars _ _).before [')']).imp fun same => ?_
      rw [String.toList_inj.mp same]
    · obtain ⟨first, rest, chars, differs⟩ := compact_layout_head (not_exists.mp quoted')
      rw [begins, chars]
      exact .of_ne differs.symm
  · by_cases quoted' : ∃ contents, other = string contents
    · obtain ⟨contents', rfl⟩ := quoted'
      obtain ⟨first, rest, chars, differs⟩ := compact_layout_head (not_exists.mp quoted)
      rw [begins, chars]
      exact .of_ne differs
    · have unquoted := not_exists.mp quoted
      have unquoted' := not_exists.mp quoted'
      rw [compact_layout unquoted, compact_layout unquoted']
      refine (Tells.upTo (not_mem_text unquoted exact) (not_mem_text unquoted' exact')).imp ?_
      intro same
      rw [← bare_text unquoted exact, ← bare_text unquoted' exact', String.toList_inj.mp same]

end Scalar

/-! ### Nodes -/

namespace Layout

variable {name label : String} {layout other : Layout} {fields others : List (String × Layout)}
  {Same Same' : Prop}

/-- The names of two nodes are told by what comes before the first parenthesis. -/
theorem tells_node {name' : String} (word : '(' ∉ outside.squeeze name.toList)
    (word' : '(' ∉ outside.squeeze name'.toList)
    (inner : outside.squeeze name.toList = outside.squeeze name'.toList →
      Tells (compactFields fields ++ [')']) (compactFields others ++ [')']) Same) :
    Tells (node name fields).compact (node name' others).compact Same := by
  have split (name : String) (fields : List (String × Layout)) : (node name fields).compact =
      (outside.squeeze name.toList ++ ['(']) ++ (compactFields fields ++ [')']) := by
    rw [compact_node, List.append_assoc, List.singleton_append]
  rw [split, split]
  exact ((Tells.upTo word word').append inner).imp And.right

/-- The last field of a node. -/
theorem tells_last (value : Tells (layout.compact ++ [')']) (other.compact ++ [')']) Same) :
    Tells (compactFields [(label, layout)] ++ [')']) (compactFields [(label, other)] ++ [')'])
      Same := by
  have single (layout : Layout) : compactFields [(label, layout)] ++ [')'] =
      (outside.squeeze label.toList ++ ['=']) ++ (layout.compact ++ [')']) := by
    simp [compactFields, compactField]
  rw [single, single]
  exact value.behind _

/-- A field before others. -/
theorem tells_more {field field' : String × Layout} (value : Tells layout.compact other.compact Same)
    (rest : Same → Tells (compactFields (field :: fields) ++ [')'])
      (compactFields (field' :: others) ++ [')']) Same') :
    Tells (compactFields ((label, layout) :: field :: fields) ++ [')'])
      (compactFields ((label, other) :: field' :: others) ++ [')']) (Same ∧ Same') := by
  have more (layout : Layout) (field : String × Layout) (fields : List (String × Layout)) :
      compactFields ((label, layout) :: field :: fields) ++ [')'] =
        (outside.squeeze label.toList ++ ['=']) ++
          (layout.compact ++ ([','] ++ (compactFields (field :: fields) ++ [')']))) := by
    simp [compactFields, compactField, List.intercalate_cons_cons]
  rw [more, more]
  exact .behind _ (value.append fun same => .behind [','] (rest same))

theorem tells_string (text text' : String) :
    Tells (string text).compact (string text').compact (text = text') := by
  rw [compact_string, compact_string]
  exact (Text.tells_quoteChars _ _).imp String.toList_inj.mp

/-- Items in brackets, none of which begins like the bracket behind them. -/
theorem tells_bracketed {α : Type} {layout : α → Layout} {items others : List α}
    {opening closing : String} {first last : Char}
    (apart : outside.squeeze (opening ++ closing).toList = [first, last])
    (opens : outside.squeeze opening.toList = [first])
    (closes : outside.squeeze closing.toList = [last])
    (begins : ∀ item, ∃ char rest, (layout item).compact = char :: rest ∧ char ≠ last)
    (each : ∀ item ∈ items, ∀ other ∈ others,
      Tells (layout item).compact (layout other).compact (item = other)) :
    Tells (bracketed opening closing (items.map layout)).compact
      (bracketed opening closing (others.map layout)).compact (items = others) := by
  have list (items : List α) : (bracketed opening closing (items.map layout)).compact =
      [first] ++ (items.flatMap (fun item => (layout item).compact ++ [',']) ++ [last]) := by
    rw [compact_bracketed (by rw [apart, opens, closes]; rfl), List.flatMap_map, opens, closes]
  rw [list, list]
  refine .behind [first] (.list (fun item => ?_) fun item member other among => ?_)
  · obtain ⟨char, rest, chars, differs⟩ := begins item
    exact ⟨char, rest ++ [','], by rw [chars, List.cons_append], differs⟩
  · exact (each item member other among).before [',']

end Layout

/-! ### Documents -/

theorem UnaryOperator.symbol_injective {op op' : UnaryOperator} (same : op.symbol = op'.symbol) :
    op = op' := by
  have read (op : UnaryOperator) : ofSymbol? op.symbol = some op := by
    cases op with
    | _ => rfl
  exact Option.some.inj (by rw [← read op, same, read])

theorem BinaryOperator.symbol_injective {op op' : BinaryOperator}
    (same : op.symbol = op'.symbol) : op = op' := by
  have read (op : BinaryOperator) : ofSymbol? op.symbol = some op := by
    cases op with
    | _ => rfl
  exact Option.some.inj (by rw [← read op, same, read])

namespace Expression

mutual

/-- Whether no literal and no index in the expression is a float. -/
def isFloatless : Expression → Bool
  | literal value => value.isFloatless
  | array items => isFloatlessAll items
  | object fields => isFloatlessFields fields
  | call _ arguments => isFloatlessAll arguments
  | identifier _ => true
  | getAttr on _ | attrSplat on | indexSplat on => isFloatless on
  | getIndex on index => isFloatless on && index.isFloatless
  | unary _ operand => isFloatless operand
  | binary _ left right => isFloatless left && isFloatless right

def isFloatlessAll : List Expression → Bool
  | [] => true
  | item :: rest => isFloatless item && isFloatlessAll rest

def isFloatlessFields : List (String × Expression) → Bool
  | [] => true
  | (_, value) :: rest => isFloatless value && isFloatlessFields rest

end

theorem isFloatless_of_mem {item : Expression} {items : List Expression}
    (exact : isFloatlessAll items = true) (member : item ∈ items) : item.isFloatless = true := by
  induction member with
  | head => exact (Bool.and_eq_true_iff.mp exact).1
  | tail _ _ ih => exact ih (Bool.and_eq_true_iff.mp exact).2

theorem isFloatless_of_mem_fields {field : String × Expression}
    {fields : List (String × Expression)} (exact : isFloatlessFields fields = true)
    (member : field ∈ fields) : field.2.isFloatless = true := by
  induction member with
  | head => exact (Bool.and_eq_true_iff.mp exact).1
  | tail _ _ ih => exact ih (Bool.and_eq_true_iff.mp exact).2

theorem layoutAll_eq (items : List Expression) : layoutAll items = items.map layout := by
  induction items with
  | nil => rfl
  | cons item items ih => rw [layoutAll, ih, List.map_cons]

/-- A field of an object with its key. -/
def fieldLayout (field : String × Expression) : Layout :=
  .string field.1 ++ .plain ": " ++ field.2.layout

theorem layoutFields_eq (fields : List (String × Expression)) :
    layoutFields fields = fields.map fieldLayout := by
  induction fields with
  | nil => rfl
  | cons field fields ih =>
      rw [layoutFields, ih, List.map_cons]
      rfl

/-- Every expression is printed as a node with the name of its kind. -/
theorem layout_eq_node (expression : Expression) :
    ∃ fields, expression.layout = .node expression.kind fields := by
  cases expression with
  | _ => exact ⟨_, rfl⟩

/-- The name of a kind is a word. -/
theorem squeeze_kind (expression : Expression) :
    outside.squeeze expression.kind.toList = expression.kind.toList ∧
      '(' ∉ expression.kind.toList ∧ ']' ∉ expression.kind.toList := by
  have words : ∀ word ∈ ["Literal", "Array", "Object", "FunctionCall", "Identifier", "GetAttr",
      "GetIndex", "AttrSplat", "IndexSplat", "UnaryOp", "BinaryOp"],
      outside.squeeze word.toList = word.toList ∧ '(' ∉ word.toList ∧ ']' ∉ word.toList := by
    decide
  refine words expression.kind ?_
  cases expression with
  | _ => simp [kind]

variable {expression other : Expression} {Same : Prop}

theorem tells_of_kind (same : expression.kind = other.kind →
      Tells expression.layout.compact other.layout.compact Same) :
    Tells expression.layout.compact other.layout.compact Same := by
  obtain ⟨fields, layout⟩ := expression.layout_eq_node
  obtain ⟨fields', layout'⟩ := other.layout_eq_node
  obtain ⟨squeeze, word, -⟩ := expression.squeeze_kind
  obtain ⟨squeeze', word', -⟩ := other.squeeze_kind
  by_cases kinds : expression.kind = other.kind
  · exact same kinds
  · rw [layout, layout']
    refine Layout.tells_node (by rwa [squeeze]) (by rwa [squeeze']) fun equal => ?_
    rw [squeeze, squeeze'] at equal
    exact absurd (String.toList_inj.mp equal) kinds

/-- Nodes of one kind differ in their fields. -/
theorem tells_fields {fields others : List (String × Layout)} (kind : Expression)
    (inner : Tells (Layout.compactFields fields ++ [')']) (Layout.compactFields others ++ [')'])
      Same) :
    Tells (Layout.node kind.kind fields).compact (Layout.node kind.kind others).compact Same := by
  obtain ⟨squeeze, word, -⟩ := kind.squeeze_kind
  exact Layout.tells_node (by rwa [squeeze]) (by rwa [squeeze]) fun _ => inner

theorem compact_begins (expression : Expression) :
    ∃ first rest, expression.layout.compact = first :: rest ∧ first ≠ ']' := by
  obtain ⟨fields, layout⟩ := expression.layout_eq_node
  obtain ⟨squeeze, -, bracket⟩ := expression.squeeze_kind
  rw [layout, Layout.compact_node, squeeze]
  cases word : expression.kind.toList with
  | nil => exact ⟨'(', _, rfl, by decide⟩
  | cons first rest =>
      rw [word] at bracket
      exact ⟨first, _, rfl, (List.ne_of_not_mem_cons bracket).symm⟩

theorem compact_field (field : String × Expression) : (fieldLayout field).compact =
    Text.quoteChars field.1.toList ++ ([':'] ++ field.2.layout.compact) := by
  rw [fieldLayout, Layout.compact_append, Layout.compact_append, Layout.compact_string,
    List.append_assoc]
  rfl

theorem tells_items {items others : List Expression}
    (each : ∀ item ∈ items, ∀ other ∈ others,
      Tells item.layout.compact other.layout.compact (item = other)) :
    Tells (Layout.bracketed "[" "]" (layoutAll items)).compact
      (Layout.bracketed "[" "]" (layoutAll others)).compact (items = others) := by
  rw [layoutAll_eq, layoutAll_eq]
  exact Layout.tells_bracketed rfl rfl rfl compact_begins each

theorem tells_entries {fields others : List (String × Expression)}
    (each : ∀ field ∈ fields, ∀ other ∈ others,
      Tells field.2.layout.compact other.2.layout.compact (field.2 = other.2)) :
    Tells (Layout.bracketed "\x7b" "\x7d" (layoutFields fields)).compact
      (Layout.bracketed "\x7b" "\x7d" (layoutFields others)).compact (fields = others) := by
  rw [layoutFields_eq, layoutFields_eq]
  refine Layout.tells_bracketed rfl rfl rfl (fun field => ?_) fun field member other among => ?_
  · exact ⟨'"', _, compact_field field, by decide⟩
  · rw [compact_field, compact_field]
    refine ((Text.tells_quoteChars _ _).append fun _ =>
      (each field member other among).behind [':']).imp ?_
    rintro ⟨key, value⟩
    exact Prod.ext (String.toList_inj.mp key) value

/-- A literal is told up to the parenthesis that ends its node. -/
theorem tells_literal {value other : Scalar} (exact : value.isFloatless = true)
    (exact' : other.isFloatless = true) :
    Tells value.literalLayout.compact other.literalLayout.compact (value = other) :=
  tells_fields (literal value) (Layout.tells_last (Scalar.tells_layout exact exact'))

mutual

/-- What is printed of an expression tells it, if no floats are in it. -/
theorem tells_layout : ∀ expression : Expression, expression.isFloatless = true →
    ∀ other : Expression, other.isFloatless = true →
      Tells expression.layout.compact other.layout.compact (expression = other)
  | literal value, exact, other, exact' => by
    refine tells_of_kind fun kinds => ?_
    cases other with
    | literal other =>
        exact (tells_literal exact exact').imp (congrArg literal)
    | _ => simp [kind] at kinds
  | array items, exact, other, exact' => by
    refine tells_of_kind fun kinds => ?_
    cases other with
    | array others =>
        have tells := tells_items fun item member other among =>
          tells_layoutAll items exact item member other (isFloatless_of_mem exact' among)
        exact (tells_fields (array items) (Layout.tells_last (tells.before _))).imp
          (congrArg array)
    | _ => simp [kind] at kinds
  | object fields, exact, other, exact' => by
    refine tells_of_kind fun kinds => ?_
    cases other with
    | object others =>
        have tells := tells_entries fun field member other among =>
          tells_layoutFields fields exact field member other.2
            (isFloatless_of_mem_fields exact' among)
        exact (tells_fields (object fields) (Layout.tells_last (tells.before _))).imp
          (congrArg object)
    | _ => simp [kind] at kinds
  | call function arguments, exact, other, exact' => by
    refine tells_of_kind fun kinds => ?_
    cases other with
    | call function' others =>
        have tells := tells_items fun item member other among =>
          tells_layoutAll arguments exact item member other (isFloatless_of_mem exact' among)
        refine (tells_fields (call function arguments) (Layout.tells_more
          (Layout.tells_string function function') fun _ =>
            Layout.tells_last (tells.before _))).imp ?_
        rintro ⟨rfl, rfl⟩
        rfl
    | _ => simp [kind] at kinds
  | identifier name, _, other, _ => by
    refine tells_of_kind fun kinds => ?_
    cases other with
    | identifier name' =>
        exact (tells_fields (identifier name) (Layout.tells_last
          ((Layout.tells_string name name').before _))).imp (congrArg identifier)
    | _ => simp [kind] at kinds
  | getAttr on name, exact, other, exact' => by
    refine tells_of_kind fun kinds => ?_
    cases other with
    | getAttr on' name' =>
        refine (tells_fields (getAttr on name) (Layout.tells_more
          (tells_layout on exact on' exact') fun _ =>
            Layout.tells_last ((Layout.tells_string name name').before _))).imp ?_
        rintro ⟨rfl, rfl⟩
        rfl
    | _ => simp [kind] at kinds
  | getIndex on index, exact, other, exact' => by
    refine tells_of_kind fun kinds => ?_
    cases other with
    | getIndex on' index' =>
        obtain ⟨inner, exact⟩ := Bool.and_eq_true_iff.mp exact
        obtain ⟨inner', exact'⟩ := Bool.and_eq_true_iff.mp exact'
        have tells := tells_literal exact exact'
        refine (tells_fields (getIndex on index) (Layout.tells_more
          (tells_layout on inner on' inner') fun _ => Layout.tells_last (tells.before _))).imp ?_
        rintro ⟨rfl, rfl⟩
        rfl
    | _ => simp [kind] at kinds
  | attrSplat on, exact, other, exact' => by
    refine tells_of_kind fun kinds => ?_
    cases other with
    | attrSplat on' =>
        exact (tells_fields (attrSplat on) (Layout.tells_last
          ((tells_layout on exact on' exact').before _))).imp (congrArg attrSplat)
    | _ => simp [kind] at kinds
  | indexSplat on, exact, other, exact' => by
    refine tells_of_kind fun kinds => ?_
    cases other with
    | indexSplat on' =>
        exact (tells_fields (indexSplat on) (Layout.tells_last
          ((tells_layout on exact on' exact').before _))).imp (congrArg indexSplat)
    | _ => simp [kind] at kinds
  | unary op operand, exact, other, exact' => by
    refine tells_of_kind fun kinds => ?_
    cases other with
    | unary op' operand' =>
        refine (tells_fields (unary op operand) (Layout.tells_more
          (Layout.tells_string op.symbol op'.symbol) fun _ => Layout.tells_last
            ((tells_layout operand exact operand' exact').before _))).imp ?_
        rintro ⟨symbol, rfl⟩
        rw [UnaryOperator.symbol_injective symbol]
    | _ => simp [kind] at kinds
  | binary op left right, exact, other, exact' => by
    refine tells_of_kind fun kinds => ?_
    cases other with
    | binary op' left' right' =>
        obtain ⟨exact, inner⟩ := Bool.and_eq_true_iff.mp exact
        obtain ⟨exact', inner'⟩ := Bool.and_eq_true_iff.mp exact'
        refine (tells_fields (binary op left right) (Layout.tells_more
          (Layout.tells_string op.symbol op'.symbol) fun _ => Layout.tells_more
            (tells_layout left exact left' exact') fun _ => Layout.tells_last
              ((tells_layout right inner right' inner').before _))).imp ?_
        rintro ⟨symbol, rfl, rfl⟩
        rw [BinaryOperator.symbol_injective symbol]
    | _ => simp [kind] at kinds

theorem tells_layoutAll : ∀ items : List Expression, isFloatlessAll items = true →
    ∀ item ∈ items, ∀ other : Expression, other.isFloatless = true →
      Tells item.layout.compact other.layout.compact (item = other)
  | [], _ => fun _ member => by cases member
  | item :: rest, exact => by
    obtain ⟨first, others⟩ := Bool.and_eq_true_iff.mp exact
    exact List.forall_mem_cons.mpr ⟨tells_layout item first, tells_layoutAll rest others⟩

theorem tells_layoutFields : ∀ fields : List (String × Expression),
    isFloatlessFields fields = true → ∀ field ∈ fields, ∀ other : Expression,
      other.isFloatless = true →
        Tells field.2.layout.compact other.layout.compact (field.2 = other)
  | [], _ => fun _ member => by cases member
  | (_, value) :: rest, exact => by
    obtain ⟨first, others⟩ := Bool.and_eq_true_iff.mp exact
    exact List.forall_mem_cons.mpr ⟨tells_layout value first, tells_layoutFields rest others⟩

end

end Expression

namespace Statement

mutual

/-- Whether no literal and no index in the statement is a float. -/
def isFloatless : Statement → Bool
  | assign _ value => value.isFloatless
  | block _ labels body => Expression.isFloatlessAll labels && isFloatlessAll body

def isFloatlessAll : List Statement → Bool
  | [] => true
  | statement :: rest => isFloatless statement && isFloatlessAll rest

end

theorem isFloatless_of_mem {statement : Statement} {statements : List Statement}
    (exact : isFloatlessAll statements = true) (member : statement ∈ statements) :
    statement.isFloatless = true := by
  induction member with
  | head => exact (Bool.and_eq_true_iff.mp exact).1
  | tail _ _ ih => exact ih (Bool.and_eq_true_iff.mp exact).2

theorem layoutAll_eq (statements : List Statement) :
    layoutAll statements = statements.map layout := by
  induction statements with
  | nil => rfl
  | cons statement statements ih => rw [layoutAll, ih, List.map_cons]

theorem compact_begins (statement : Statement) :
    ∃ first rest, statement.layout.compact = first :: rest ∧ first ≠ ']' := by
  cases statement with
  | assign key value =>
      rw [layout, Layout.compact_node]
      exact ⟨'A', _, rfl, by decide⟩
  | block name labels body =>
      rw [layout, Layout.compact_node]
      exact ⟨'B', _, rfl, by decide⟩

theorem tells_items {statements others : List Statement}
    (each : ∀ statement ∈ statements, ∀ other ∈ others,
      Tells statement.layout.compact other.layout.compact (statement = other)) :
    Tells (Layout.bracketed "[" "]" (layoutAll statements)).compact
      (Layout.bracketed "[" "]" (layoutAll others)).compact (statements = others) := by
  rw [layoutAll_eq, layoutAll_eq]
  exact Layout.tells_bracketed rfl rfl rfl compact_begins each

/-- Statements of the two kinds begin with different letters. -/
theorem tells_of_ne {key name : String} {value : Expression} {labels : List Expression}
    {body : List Statement} {Same : Prop} :
    Tells (assign key value).layout.compact (block name labels body).layout.compact Same ∧
      Tells (block name labels body).layout.compact (assign key value).layout.compact Same := by
  rw [layout, layout, Layout.compact_node, Layout.compact_node]
  exact ⟨.of_ne (by decide), .of_ne (by decide)⟩

mutual

/-- What is printed of a statement tells it, if no floats are in it. -/
theorem tells_layout : ∀ statement : Statement, statement.isFloatless = true →
    ∀ other : Statement, other.isFloatless = true →
      Tells statement.layout.compact other.layout.compact (statement = other)
  | assign key value, exact, other, exact' => by
    cases other with
    | assign key' value' =>
        refine (Layout.tells_node (by decide) (by decide) fun _ => Layout.tells_more
          (Layout.tells_string key key') fun _ => Layout.tells_last
            ((value.tells_layout exact value' exact').before _)).imp ?_
        rintro ⟨rfl, rfl⟩
        rfl
    | block => exact tells_of_ne.1
  | block name labels body, exact, other, exact' => by
    cases other with
    | assign => exact tells_of_ne.2
    | block name' labels' body' =>
        obtain ⟨exact, inner⟩ := Bool.and_eq_true_iff.mp exact
        obtain ⟨exact', inner'⟩ := Bool.and_eq_true_iff.mp exact'
        have heads := Expression.tells_items fun item member other among =>
          Expression.tells_layoutAll labels exact item member other
            (Expression.isFloatless_of_mem exact' among)
        have statements := tells_items fun item member other among =>
          tells_layoutAll body inner item member other (isFloatless_of_mem inner' among)
        refine (Layout.tells_node (by decide) (by decide) fun _ => Layout.tells_more
          (Layout.tells_string name name') fun _ => Layout.tells_more heads fun _ =>
            Layout.tells_last (statements.before _)).imp ?_
        rintro ⟨rfl, rfl, rfl⟩
        rfl

theorem tells_layoutAll : ∀ statements : List Statement, isFloatlessAll statements = true →
    ∀ statement ∈ statements, ∀ other : Statement, other.isFloatless = true →
      Tells statement.layout.compact other.layout.compact (statement = other)
  | [], _ => fun _ member => by cases member
  | statement :: rest, exact => by
    obtain ⟨first, others⟩ := Bool.and_eq_true_iff.mp exact
    exact List.forall_mem_cons.mpr ⟨tells_layout statement first, tells_layoutAll rest others⟩

end

end Statement

namespace Document

/-- Whether no literal and no index in the document is a float. -/
def isFloatless (document : Document) : Bool :=
  Statement.isFloatlessAll document.body

theorem tells_layout {document other : Document} (exact : document.isFloatless = true)
    (exact' : other.isFloatless = true) :
    Tells document.layout.compact other.layout.compact (document = other) := by
  have statements := Statement.tells_items fun item member other among =>
    Statement.tells_layoutAll document.body exact item member other
      (Statement.isFloatless_of_mem exact' among)
  refine (Layout.tells_node (by decide) (by decide) fun _ => Layout.tells_last
    (statements.before _)).imp ?_
  intro same
  cases document
  cases other
  rw [Document.mk.injEq]
  exact same

/-- Layouts of documents without floats that are rendered alike are those of the same document. -/
theorem render_injective {document other : Document} {indent : Nat}
    (exact : document.isFloatless = true) (exact' : other.isFloatless = true)
    (same : document.layout.render ⟨false, indent⟩ = other.layout.render ⟨false, indent⟩) :
    document = other := by
  have compact : document.layout.compact ++ [] = other.layout.compact ++ [] := by
    rw [← Layout.squeeze_render indent document.printed_layout,
      ← Layout.squeeze_render indent other.printed_layout, same]
  exact (tells_layout exact exact' compact).1

/-- Two documents without floats that are printed alike, with whatever indentation, are the same. -/
theorem print_injective {document other : Document} {indent : Nat}
    (exact : document.isFloatless = true) (exact' : other.isFloatless = true)
    (same : (Node.document document).print ⟨false, indent⟩ =
      (Node.document other).print ⟨false, indent⟩) : document = other := by
  rw [← Node.render_layout_eq_print, ← Node.render_layout_eq_print] at same
  exact render_injective exact exact' same

/-- A text with a line feed and a quote in it, and lines that are not indented. -/
theorem print_injective_quoted :
    let document : Document := ⟨[.assign "a\n\"" (.array [.literal .null])]⟩
    let other : Document := ⟨[Scalar.null].map fun value =>
      .assign (String.ofList ['a', '\n', '"']) (.array [.literal value])⟩
    document.isFloatless = true ∧ other.isFloatless = true ∧
      (Node.document document).print ⟨false, 0⟩ =
        "Module(body=[\nAttribute(\nkey=\"a\\n\\\"\",\n" ++
          "value=Array(values=[\nLiteral(value=null),\n])\n),\n])" ∧
      (Node.document document).print ⟨false, 0⟩ = (Node.document other).print ⟨false, 0⟩ ∧
      document = other := by
  intro document other
  have exact : document.isFloatless = true := by decide +kernel
  have exact' : other.isFloatless = true := by decide +kernel
  have same : (Node.document document).print ⟨false, 0⟩ =
      (Node.document other).print ⟨false, 0⟩ := by
    decide +kernel
  exact ⟨exact, exact', by decide +kernel, same, print_injective exact exact' same⟩

/-- Floats are left out for this: there are many numbers that are not numbers, and one text. -/
example : ∃ number other : Binary64, number ≠ other ∧
    (Node.literal (.float number)).print {} = (Node.literal (.float other)).print {} :=
  ⟨⟨0x7FF8000000000000⟩, ⟨0x7FF8000000000001⟩, by decide, by decide +kernel⟩

end Document

end ConfigLang
