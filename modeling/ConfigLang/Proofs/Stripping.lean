import ConfigLang.Document.Part
/-!
No production looks at newlines. Each strips them from the parts of its children before it counts
them, takes the last or matches them, so that it makes the same of the parts that are left, with the
same flaw if they do not fit.
-/

set_option autoImplicit false

namespace ConfigLang.Part

variable {part : Part}

@[simp] theorem strip_nil : strip [] = [] := rfl

theorem strip_cons_of_counts (counts : part.isNewline = false) (parts : List Part) :
    strip (part :: parts) = part :: strip parts :=
  List.filter_cons_of_pos (by rw [counts]; rfl)

theorem strip_cons_of_newline (newline : part.isNewline = true) (parts : List Part) :
    strip (part :: parts) = strip parts :=
  List.filter_cons_of_neg (by rw [newline]; exact Bool.false_ne_true)

theorem strip_append (first second : List Part) :
    strip (first ++ second) = strip first ++ strip second :=
  List.filter_append ..

theorem strip_of_counts {parts : List Part} (counts : ∀ part ∈ parts, part.isNewline = false) :
    strip parts = parts :=
  List.filter_eq_self.mpr fun part member => by rw [counts part member]; rfl

theorem strip_map {α : Type} (make : α → Part) (counts : ∀ value, (make value).isNewline = false)
    (values : List α) : strip (values.map make) = values.map make :=
  strip_of_counts (List.forall_mem_map.mpr fun value _ => counts value)

@[simp] theorem strip_strip (parts : List Part) : strip (strip parts) = strip parts := by
  rw [strip, strip, List.filter_filter]
  simp only [Bool.and_self]

theorem mem_of_mem_strip {parts : List Part} (member : part ∈ strip parts) : part ∈ parts :=
  (List.mem_filter.mp member).1

variable (parts : List Part)

/-! ### Productions of a fixed number of parts -/

theorem one_strip : one (strip parts) = one parts := by
  rw [one, one, strip_strip]

theorem two_strip : two (strip parts) = two parts := by
  rw [two, two, strip_strip]

theorem one_of_counts (counts : part.isNewline = false) : one [part] = .ok part := by
  rw [one, strip_cons_of_counts counts, strip_nil]

theorem two_of_counts {first second : Part} (before : first.isNewline = false)
    (behind : second.isNewline = false) : two [first, second] = .ok (first, second) := by
  rw [two, strip_cons_of_counts before, strip_cons_of_counts behind, strip_nil]

theorem onlyToken_of_inline {leaf : Token} (inline : leaf.kind ≠ .newline) :
    onlyToken [.token leaf] = .ok leaf.kind := by
  have counts : isNewline (.token leaf) = false := decide_eq_false inline
  rw [onlyToken, one_of_counts counts]
  rfl

theorem onlyToken_strip : onlyToken (strip parts) = onlyToken parts := by
  rw [onlyToken, onlyToken, one_strip]

theorem ofSplat_strip (step : Access) : ofSplat step (strip parts) = ofSplat step parts := by
  rw [ofSplat, ofSplat, strip_strip]

theorem ofAccess_strip (wanted : Expression → Access → Option Expression) :
    ofAccess wanted (strip parts) = ofAccess wanted parts := by
  rw [ofAccess, ofAccess, two_strip]

/-! ### Productions of any number of parts -/

theorem ofStart_strip : ofStart (strip parts) = ofStart parts := by
  rw [ofStart, ofStart, strip_strip]

/-- The last part of a block decides whether a body is added, and a newline is not the last part. -/
theorem ofBlock_strip : ofBlock (strip parts) = ofBlock parts := by
  rw [ofBlock, ofBlock, strip_strip]

theorem ofCall_strip : ofCall (strip parts) = ofCall parts := by
  rw [ofCall, ofCall, strip_strip]

/-- Newlines among the parts change neither what a production makes of them nor what is wrong with
them. -/
theorem ofRule_strip (rule : Rule) : ofRule rule (strip parts) = ofRule rule parts := by
  cases rule with
  | newLines => rfl
  | start => exact ofStart_strip parts
  | body => rw [ofRule, ofRule, ofBody, ofBody, strip_strip]
  | attr => rw [ofRule, ofRule, ofAttr, ofAttr, two_strip]
  | block => exact ofBlock_strip parts
  | identifier => rw [ofRule, ofRule, ofIdentifier, ofIdentifier, onlyToken_strip]
  | term => rw [ofRule, ofRule, ofTerm, ofTerm, one_strip]
  | int => rw [ofRule, ofRule, ofInt, ofInt, onlyToken_strip]
  | float => rw [ofRule, ofRule, ofFloat, ofFloat, onlyToken_strip]
  | string => rw [ofRule, ofRule, ofString, ofString, onlyToken_strip]
  | tuple => rw [ofRule, ofRule, ofTuple, ofTuple, strip_strip]
  | object => rw [ofRule, ofRule, ofObject, ofObject, strip_strip]
  | objectElement => rw [ofRule, ofRule, ofObjectElement, ofObjectElement, two_strip]
  | call => exact ofCall_strip parts
  | arguments => rw [ofRule, ofRule, ofArguments, ofArguments, strip_strip]
  | getAttr => rw [ofRule, ofRule, ofGetAttr, ofGetAttr, one_strip]
  | index => rw [ofRule, ofRule, ofIndex, ofIndex, one_strip]
  | attrSplat | fullSplat => exact ofSplat_strip parts _
  | getAttrTerm | indexTerm | attrSplatTerm | fullSplatTerm => exact ofAccess_strip parts _
  | unary => rw [ofRule, ofRule, ofUnary, ofUnary, two_strip]
  | binary => rw [ofRule, ofRule, ofBinary, ofBinary, two_strip]
  | binaryTerm => rw [ofRule, ofRule, ofBinaryTerm, ofBinaryTerm, two_strip]
  | binaryOperator => rw [ofRule, ofRule, ofBinaryOperator, ofBinaryOperator, onlyToken_strip]

end ConfigLang.Part
