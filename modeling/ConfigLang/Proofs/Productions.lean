import ConfigLang.Proofs.Places
/-!
What the productions of a tree stand for, one case for each shape of the children. All that a
production can make of the parts of its children is said here once.
-/

set_option autoImplicit false

namespace ConfigLang.Part

variable {parts : List Part} {part : Part}

theorem toExpression_eq_ok_iff {value : Expression} :
    part.toExpression = .ok value ↔
      part = .expression value ∨ ∃ scalar, part = .primitive scalar ∧ value = .literal scalar := by
  cases part with
  | expression other => simp [toExpression]
  | primitive scalar => simp [toExpression, eq_comm]
  | _ => simp [toExpression]

theorem toLabel_eq_ok_iff {label : Expression} :
    part.toLabel = .ok label ↔ Labels part label := by
  constructor
  · intro taken
    unfold toLabel at taken
    split at taken
    · cases taken
      exact .name
    · cases taken
      exact .string
    · cases taken
  · intro labels
    cases labels with
    | name | string => rfl

/-- What is taken from several parts is taken from each. -/
theorem forall₂_of_mapM {α : Type} {take : Part → Reading α} {values : List α}
    (taken : parts.mapM take = .ok values) :
    List.Forall₂ (fun part value => take part = .ok value) parts values := by
  induction parts generalizing values with
  | nil =>
      cases taken
      exact .nil
  | cons part parts ih =>
      rw [List.mapM_cons] at taken
      obtain ⟨value, first, taken⟩ := bind_eq_ok_iff.mp taken
      obtain ⟨others, rest, same⟩ := bind_eq_ok_iff.mp taken
      cases same
      exact .cons first (ih rest)

/-- The parts stand for these values, one by one. -/
def Express (parts : List Part) (values : List Expression) : Prop :=
  List.Forall₂ (fun part value => part.toExpression = .ok value) parts values

/-- What a production makes of the parts of its children. -/
inductive Produces : Rule → List Part → Part → Prop
  | newLines {parts : List Part} : Produces .newLines parts .newline
  | blank : Produces .start [] (.document ⟨[]⟩)
  | start {statements : List Statement} :
      Produces .start [.body statements] (.document ⟨statements⟩)
  | body {parts : List Part} {statements : List Statement}
      (inner : List.Forall₂ (fun part value => part.toStatement = .ok value) parts statements) :
      Produces .body parts (.body statements)
  | attr {key : String} {part : Part} {value : Expression} (is : part.toExpression = .ok value) :
      Produces .attr [.name key, part] (.statement (.assign key value))
  | block {title : String} {parts heads : List Part} {labels : List Expression}
      {statements : List Statement}
      (whole : withBody parts = .name title :: (heads ++ [.body statements]))
      (labelled : List.Forall₂ Labels heads labels) :
      Produces .block parts (.statement (.block title labels statements))
  | identifier {leaf : Token} {name : String} (is : leaf.kind = .ident name) :
      Produces .identifier [.token leaf] (.name name)
  | word {name : String} : Produces .term [.name name] (.expression (ofName name))
  | term {part : Part} {value : Expression} (is : part.toExpression = .ok value) :
      Produces .term [part] (.expression value)
  | int {leaf : Token} {value : Int64} (is : leaf.kind = .int value) :
      Produces .int [.token leaf] (.expression (.literal (.int value)))
  | float {leaf : Token} {value : Binary64} (is : leaf.kind = .float value) :
      Produces .float [.token leaf] (.expression (.literal (.float value)))
  | string {leaf : Token} {contents : String} (is : leaf.kind = .string contents) :
      Produces .string [.token leaf] (.primitive (.string contents))
  | tuple {parts : List Part} {values : List Expression} (express : Express parts values) :
      Produces .tuple parts (.expression (.array values))
  | object {entries : List (String × Expression)} :
      Produces .object (entries.map fun entry => .element entry.1 entry.2)
        (.expression (.object (Fields.ofList entries)))
  | objectElement {key part : Part} {name : String} {value : Expression}
      (named : key.toKey = .ok name) (is : part.toExpression = .ok value) :
      Produces .objectElement [key, part] (.element name value)
  | callNone {function : String} :
      Produces .call [.name function] (.expression (.call function []))
  | call {function : String} {values : List Expression} :
      Produces .call [.name function, .arguments values] (.expression (.call function values))
  | arguments {parts : List Part} {values : List Expression} (express : Express parts values) :
      Produces .arguments parts (.arguments values)
  | getAttr {name : String} : Produces .getAttr [.name name] (.access (.attr name))
  | index {part : Part} {value : Scalar} (is : part.toExpression = .ok (.literal value)) :
      Produces .index [part] (.access (.index value))
  | attrSplat : Produces .attrSplat [] (.access .attrSplat)
  | fullSplat : Produces .fullSplat [] (.access .fullSplat)
  | getAttrTerm {part : Part} {on : Expression} {name : String}
      (is : part.toExpression = .ok on) :
      Produces .getAttrTerm [part, .access (.attr name)] (.expression (.getAttr on name))
  | indexTerm {part : Part} {on : Expression} {value : Scalar} (is : part.toExpression = .ok on) :
      Produces .indexTerm [part, .access (.index value)] (.expression (.getIndex on value))
  | attrSplatTerm {part : Part} {on : Expression} (is : part.toExpression = .ok on) :
      Produces .attrSplatTerm [part, .access .attrSplat] (.expression (.attrSplat on))
  | fullSplatTerm {part : Part} {on : Expression} (is : part.toExpression = .ok on) :
      Produces .fullSplatTerm [part, .access .fullSplat] (.expression (.indexSplat on))
  | unary {leaf : Token} {op : UnaryOperator} {part : Part} {operand : Expression}
      (signs : unaryOperator? leaf.kind = some op) (is : part.toExpression = .ok operand) :
      Produces .unary [.token leaf, part] (.expression (.unary op operand))
  | binary {op : BinaryOperator} {part : Part} {left right : Expression}
      (is : part.toExpression = .ok left) :
      Produces .binary [part, .operation op right] (.expression (.binary op left right))
  | binaryTerm {op : BinaryOperator} {part : Part} {right : Expression}
      (is : part.toExpression = .ok right) :
      Produces .binaryTerm [.operator op, part] (.operation op right)
  | binaryOperator {leaf : Token} {op : BinaryOperator}
      (joins : binaryOperator? leaf.kind = some op) :
      Produces .binaryOperator [.token leaf] (.operator op)

theorem produces_start (made : ofStart parts = .ok part) :
    Produces .start (strip parts) part := by
  unfold ofStart at made
  generalize strip parts = kept at made ⊢
  rcases kept with _ | ⟨only, _ | ⟨second, rest⟩⟩
  · cases made
    exact .blank
  · cases only with
    | body =>
        cases made
        exact .start
    | _ => cases made
  · rw [List.getLast?_eq_some_getLast (List.cons_ne_nil only (second :: rest)),
      List.dropLast_cons_of_ne_nil (List.cons_ne_nil second rest)] at made
    generalize (only :: second :: rest).getLast _ = last at made
    cases last with
    | _ => cases made

theorem produces_attr (made : ofAttr parts = .ok part) : Produces .attr (strip parts) part := by
  obtain ⟨⟨key, value⟩, pair, made⟩ := bind_eq_ok_iff.mp made
  rw [two_eq_ok pair]
  cases key with
  | name =>
      obtain ⟨_, taken, made⟩ := bind_eq_ok_iff.mp made
      cases made
      exact .attr taken
  | _ => cases made

/-- The title comes first and the body last, with the labels between them. -/
theorem produces_block (made : ofBlock parts = .ok part) :
    Produces .block (strip parts) part := by
  unfold ofBlock at made
  split at made
  next first second rest whole =>
    split at made
    next statements title last =>
      obtain ⟨labels, labelled, made⟩ := bind_eq_ok_iff.mp made
      cases made
      have split : (second :: rest).dropLast ++ [.body statements] = second :: rest :=
        List.dropLast_append_getLast? _ last
      refine .block (by rw [whole, split]) ?_
      exact (forall₂_of_mapM labelled).imp fun _ _ => toLabel_eq_ok_iff.mp
    all_goals cases made
  next => cases made

theorem produces_term (made : ofTerm parts = .ok part) : Produces .term (strip parts) part := by
  obtain ⟨only, single, made⟩ := bind_eq_ok_iff.mp made
  rw [one_eq_ok single]
  cases only with
  | name =>
      cases made
      exact .word
  | _ =>
      obtain ⟨_, taken, made⟩ := bind_eq_ok_iff.mp made
      cases made
      exact .term taken

/-- A production made from the kind of its only token. -/
theorem ofToken_eq_ok {make : Kind → Reading Part}
    (made : (onlyToken parts >>= make) = .ok part) :
    ∃ leaf, strip parts = [.token leaf] ∧ make leaf.kind = .ok part := by
  obtain ⟨kind, read, made⟩ := bind_eq_ok_iff.mp made
  obtain ⟨only, single, read⟩ := bind_eq_ok_iff.mp read
  rw [one_eq_ok single]
  cases only with
  | token leaf =>
      cases read
      exact ⟨leaf, rfl, made⟩
  | _ => cases read

theorem elements_of_mapM {entries : List (String × Expression)}
    (taken : parts.mapM toElement = .ok entries) :
    parts = entries.map fun entry => .element entry.1 entry.2 := by
  have each := forall₂_of_mapM taken
  clear taken
  induction each with
  | nil => rfl
  | @cons part entry parts entries first _ ih =>
      cases part with
      | element =>
          cases first
          rw [ih, List.map_cons]
      | _ => cases first

theorem produces_objectElement (made : ofObjectElement parts = .ok part) :
    Produces .objectElement (strip parts) part := by
  obtain ⟨⟨key, value⟩, pair, made⟩ := bind_eq_ok_iff.mp made
  obtain ⟨_, keyed, made⟩ := bind_eq_ok_iff.mp made
  obtain ⟨_, taken, made⟩ := bind_eq_ok_iff.mp made
  cases made
  rw [two_eq_ok pair]
  exact .objectElement keyed taken

theorem produces_call (made : ofCall parts = .ok part) : Produces .call (strip parts) part := by
  unfold ofCall at made
  generalize strip parts = kept at made ⊢
  split at made
  case h_2 =>
    cases made
    exact .callNone
  case h_3 =>
    cases made
    exact .call
  all_goals cases made

theorem produces_index (made : ofIndex parts = .ok part) :
    Produces .index (strip parts) part := by
  obtain ⟨only, single, made⟩ := bind_eq_ok_iff.mp made
  rw [one_eq_ok single]
  split at made
  next =>
    cases made
    exact .index rfl
  next =>
    cases made
    exact .index rfl
  next => cases made

/-- The step that a production wants is the only one that it takes. -/
theorem ofAccess_eq_ok {wanted : Expression → Access → Option Expression}
    (made : ofAccess wanted parts = .ok part) :
    ∃ term on step value, strip parts = [term, .access step] ∧ term.toExpression = .ok on ∧
      wanted on step = some value ∧ part = .expression value := by
  obtain ⟨⟨term, last⟩, pair, made⟩ := bind_eq_ok_iff.mp made
  obtain ⟨on, taken, made⟩ := bind_eq_ok_iff.mp made
  rw [two_eq_ok pair]
  cases last with
  | access step =>
      cases result : wanted on step with
      | none =>
          simp only [result] at made
          cases made
      | some value =>
          simp only [result] at made
          cases made
          exact ⟨term, on, step, value, rfl, taken, result, rfl⟩
  | _ => cases made

theorem produces_unary (made : ofUnary parts = .ok part) :
    Produces .unary (strip parts) part := by
  obtain ⟨⟨sign, operand⟩, pair, made⟩ := bind_eq_ok_iff.mp made
  obtain ⟨op, signed, made⟩ := bind_eq_ok_iff.mp made
  obtain ⟨_, taken, made⟩ := bind_eq_ok_iff.mp made
  cases made
  rw [two_eq_ok pair]
  cases sign with
  | token leaf =>
      unfold toUnaryOperator at signed
      dsimp only at signed
      split at signed
      next found =>
        cases signed
        exact .unary found taken
      next => cases signed
  | _ => cases signed

theorem produces_binary (made : ofBinary parts = .ok part) :
    Produces .binary (strip parts) part := by
  obtain ⟨⟨left, rest⟩, pair, made⟩ := bind_eq_ok_iff.mp made
  rw [two_eq_ok pair]
  cases rest with
  | operation =>
      obtain ⟨_, taken, made⟩ := bind_eq_ok_iff.mp made
      cases made
      exact .binary taken
  | _ => cases made

theorem produces_binaryTerm (made : ofBinaryTerm parts = .ok part) :
    Produces .binaryTerm (strip parts) part := by
  obtain ⟨⟨op, right⟩, pair, made⟩ := bind_eq_ok_iff.mp made
  rw [two_eq_ok pair]
  cases op with
  | operator =>
      obtain ⟨_, taken, made⟩ := bind_eq_ok_iff.mp made
      cases made
      exact .binaryTerm taken
  | _ => cases made

/-- Whatever the parts of the children are, a production makes nothing else of them. -/
theorem produces_of_ofRule {rule : Rule} (made : ofRule rule parts = .ok part) :
    Produces rule (strip parts) part := by
  cases rule with
  | newLines =>
      cases made
      exact .newLines
  | start => exact produces_start made
  | body =>
      obtain ⟨statements, taken, made⟩ := bind_eq_ok_iff.mp made
      cases made
      exact .body (forall₂_of_mapM taken)
  | attr => exact produces_attr made
  | block => exact produces_block made
  | identifier | int | float | string =>
      obtain ⟨leaf, kept, single⟩ := ofToken_eq_ok made
      rw [kept]
      split at single
      next is =>
        cases single
        constructor
        exact is
      next => cases single
  | term => exact produces_term made
  | tuple =>
      obtain ⟨values, taken, made⟩ := bind_eq_ok_iff.mp made
      cases made
      exact .tuple (forall₂_of_mapM taken)
  | object =>
      obtain ⟨entries, taken, made⟩ := bind_eq_ok_iff.mp made
      cases made
      rw [elements_of_mapM taken]
      exact .object
  | objectElement => exact produces_objectElement made
  | call => exact produces_call made
  | arguments =>
      obtain ⟨values, taken, made⟩ := bind_eq_ok_iff.mp made
      cases made
      exact .arguments (forall₂_of_mapM taken)
  | getAttr =>
      obtain ⟨only, single, made⟩ := bind_eq_ok_iff.mp made
      rw [one_eq_ok single]
      split at made
      next =>
        cases made
        exact .getAttr
      next => cases made
  | index => exact produces_index made
  | attrSplat | fullSplat =>
      obtain ⟨kept, rfl⟩ := ofSplat_eq_ok made
      rw [kept]
      constructor
  | getAttrTerm | indexTerm | attrSplatTerm | fullSplatTerm =>
      obtain ⟨term, on, step, value, kept, taken, found, rfl⟩ := ofAccess_eq_ok made
      rw [kept]
      cases step with
      | _ =>
          cases found
          all_goals
            constructor
            exact taken
  | unary => exact produces_unary made
  | binary => exact produces_binary made
  | binaryTerm => exact produces_binaryTerm made
  | binaryOperator =>
      obtain ⟨leaf, kept, single⟩ := ofToken_eq_ok made
      rw [kept]
      split at single
      next found =>
        cases single
        exact .binaryOperator found
      next => cases single

/-- What a node stands for is what its production makes of the parts that count. -/
theorem means_node_produces {rule : Rule} {line : Nat} {children : List Tree}
    (means : Means (.node rule line children) part) :
    ∃ parts, MeanAll children parts ∧ Produces rule parts part := by
  obtain ⟨_, ⟨all, read, rfl⟩, made⟩ := means_node_ok means
  rw [ofRule_strip] at made
  exact ⟨strip all, ⟨all, read, rfl⟩, produces_of_ofRule made⟩

end ConfigLang.Part
