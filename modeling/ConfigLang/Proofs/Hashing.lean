import ConfigLang.Document.Distinct
/-!
Equality and hashing agree. Two nodes are equal if and only if they are the same tree, and if and
only if they write the same data to a hash: what a node writes tells the node, whatever is written
behind it. So whichever hash is made of the data, a table finds what a search from the front finds.
-/

set_option autoImplicit false

namespace ConfigLang

/-! ### What nodes write -/

/-- Where the data of two nodes go on alike, the nodes are the same, and so is what follows. -/
def TellsNode {α : Type} (digest : α → List Atom) (node : α) : Prop :=
  ∀ ⦃other rest rest'⦄, digest node ++ rest = digest other ++ rest' → node = other ∧ rest = rest'

theorem TellsNode.eq {α : Type} {digest : α → List Atom} {node other : α}
    (tells : TellsNode digest node) (same : digest node = digest other) : node = other :=
  (tells (congrArg (· ++ []) same)).1

theorem UnaryOperator.ctorIdx_injective {op op' : UnaryOperator} (same : op.ctorIdx = op'.ctorIdx) :
    op = op' := by
  rw [← ofNat_ctorIdx op, same, ofNat_ctorIdx]

theorem BinaryOperator.ctorIdx_injective {op op' : BinaryOperator}
    (same : op.ctorIdx = op'.ctorIdx) : op = op' := by
  rw [← ofNat_ctorIdx op, same, ofNat_ctorIdx]

theorem Scalar.digest_tells (value : Scalar) : TellsNode digest value := by
  have bools : ∀ value other : Bool, value.toUInt64 = other.toUInt64 → value = other := by decide
  intro other rest rest' same
  cases value with
  | null =>
      cases other with
      | null => exact ⟨rfl, (List.cons.inj same).2⟩
      | _ => exact absurd (List.cons.inj same).1 (by decide)
  | bool value =>
      cases other with
      | bool other =>
          obtain ⟨word, behind⟩ := List.cons.inj (List.cons.inj same).2
          exact ⟨congrArg bool (bools value other (Atom.word.inj word)), behind⟩
      | _ => exact absurd (List.cons.inj same).1 (by decide)
  | int value =>
      cases other with
      | int other =>
          obtain ⟨word, behind⟩ := List.cons.inj (List.cons.inj same).2
          exact ⟨congrArg (int ∘ Int64.ofUInt64) (Atom.word.inj word), behind⟩
      | _ => exact absurd (List.cons.inj same).1 (by decide)
  | float value =>
      cases other with
      | float other =>
          obtain ⟨word, behind⟩ := List.cons.inj (List.cons.inj same).2
          exact ⟨congrArg (float ∘ Binary64.mk) (Atom.word.inj word), behind⟩
      | _ => exact absurd (List.cons.inj same).1 (by decide)
  | string value =>
      cases other with
      | string other =>
          obtain ⟨text, behind⟩ := List.cons.inj (List.cons.inj same).2
          exact ⟨congrArg string (Atom.text.inj text), behind⟩
      | _ => exact absurd (List.cons.inj same).1 (by decide)

namespace Expression

mutual

/-- The tag tells the kind of an expression, and the parts are told one after the other. -/
theorem digest_tells : ∀ expression : Expression, TellsNode digest expression
  | literal value => by
    intro other rest rest' same
    cases other with
    | literal other =>
        obtain ⟨rfl, behind⟩ := value.digest_tells (List.cons.inj same).2
        exact ⟨rfl, behind⟩
    | _ => exact absurd (List.cons.inj same).1 (by decide)
  | array items => by
    intro other rest rest' same
    cases other with
    | array others =>
        obtain ⟨sizes, contents⟩ := List.cons.inj (List.cons.inj same).2
        obtain ⟨rfl, behind⟩ := digestAll_tells items (Atom.size.inj sizes) contents
        exact ⟨rfl, behind⟩
    | _ => exact absurd (List.cons.inj same).1 (by decide)
  | object fields => by
    intro other rest rest' same
    cases other with
    | object others =>
        obtain ⟨sizes, contents⟩ := List.cons.inj (List.cons.inj same).2
        obtain ⟨rfl, behind⟩ := digestFields_tells fields (Atom.size.inj sizes) contents
        exact ⟨rfl, behind⟩
    | _ => exact absurd (List.cons.inj same).1 (by decide)
  | call function arguments => by
    intro other rest rest' same
    cases other with
    | call other others =>
        obtain ⟨functions, sized⟩ := List.cons.inj (List.cons.inj same).2
        obtain ⟨sizes, contents⟩ := List.cons.inj sized
        obtain ⟨rfl, behind⟩ := digestAll_tells arguments (Atom.size.inj sizes) contents
        exact ⟨by rw [Atom.text.inj functions], behind⟩
    | _ => exact absurd (List.cons.inj same).1 (by decide)
  | identifier name => by
    intro other rest rest' same
    cases other with
    | identifier other =>
        obtain ⟨names, behind⟩ := List.cons.inj (List.cons.inj same).2
        exact ⟨congrArg identifier (Atom.text.inj names), behind⟩
    | _ => exact absurd (List.cons.inj same).1 (by decide)
  | getAttr on name => by
    intro other rest rest' same
    cases other with
    | getAttr other name' =>
        rw [digest, digest, List.append_assoc, List.append_assoc] at same
        obtain ⟨rfl, named⟩ := digest_tells on (List.cons.inj same).2
        obtain ⟨names, behind⟩ := List.cons.inj named
        exact ⟨by rw [Atom.text.inj names], behind⟩
    | _ => exact absurd (List.cons.inj same).1 (by decide)
  | getIndex on index => by
    intro other rest rest' same
    cases other with
    | getIndex other index' =>
        rw [digest, digest, List.append_assoc, List.append_assoc] at same
        obtain ⟨rfl, indexed⟩ := digest_tells on (List.cons.inj same).2
        obtain ⟨rfl, behind⟩ := index.digest_tells indexed
        exact ⟨rfl, behind⟩
    | _ => exact absurd (List.cons.inj same).1 (by decide)
  | attrSplat on => by
    intro other rest rest' same
    cases other with
    | attrSplat other =>
        obtain ⟨rfl, behind⟩ := digest_tells on (List.cons.inj same).2
        exact ⟨rfl, behind⟩
    | _ => exact absurd (List.cons.inj same).1 (by decide)
  | indexSplat on => by
    intro other rest rest' same
    cases other with
    | indexSplat other =>
        obtain ⟨rfl, behind⟩ := digest_tells on (List.cons.inj same).2
        exact ⟨rfl, behind⟩
    | _ => exact absurd (List.cons.inj same).1 (by decide)
  | unary op operand => by
    intro other rest rest' same
    cases other with
    | unary op' other =>
        obtain ⟨ops, contents⟩ := List.cons.inj (List.cons.inj same).2
        obtain ⟨rfl, behind⟩ := digest_tells operand contents
        exact ⟨by rw [UnaryOperator.ctorIdx_injective (Atom.tag.inj ops)], behind⟩
    | _ => exact absurd (List.cons.inj same).1 (by decide)
  | binary op left right => by
    intro other rest rest' same
    cases other with
    | binary op' left' right' =>
        obtain ⟨ops, contents⟩ := List.cons.inj (List.cons.inj same).2
        simp only [List.append_eq, List.append_assoc] at contents
        obtain ⟨rfl, second⟩ := digest_tells left contents
        obtain ⟨rfl, behind⟩ := digest_tells right second
        exact ⟨by rw [BinaryOperator.ctorIdx_injective (Atom.tag.inj ops)], behind⟩
    | _ => exact absurd (List.cons.inj same).1 (by decide)

theorem digestAll_tells : ∀ (items : List Expression) {others rest rest'},
    items.length = others.length → digestAll items ++ rest = digestAll others ++ rest' →
      items = others ∧ rest = rest'
  | [], others, rest, rest', sizes, same => by
    cases others with
    | nil => exact ⟨rfl, same⟩
    | cons => cases sizes
  | item :: items, others, rest, rest', sizes, same => by
    cases others with
    | nil => cases sizes
    | cons other others =>
        rw [digestAll, digestAll, List.append_assoc, List.append_assoc] at same
        obtain ⟨rfl, contents⟩ := digest_tells item same
        obtain ⟨rfl, behind⟩ := digestAll_tells items (Nat.succ.inj sizes) contents
        exact ⟨rfl, behind⟩

theorem digestFields_tells : ∀ (fields : List (String × Expression)) {others rest rest'},
    fields.length = others.length → digestFields fields ++ rest = digestFields others ++ rest' →
      fields = others ∧ rest = rest'
  | [], others, rest, rest', sizes, same => by
    cases others with
    | nil => exact ⟨rfl, same⟩
    | cons => cases sizes
  | (key, value) :: fields, others, rest, rest', sizes, same => by
    cases others with
    | nil => cases sizes
    | cons other others =>
        obtain ⟨key', value'⟩ := other
        obtain ⟨keys, values⟩ := List.cons.inj same
        simp only [List.append_eq, List.append_assoc] at values
        obtain ⟨rfl, contents⟩ := digest_tells value values
        obtain ⟨rfl, behind⟩ := digestFields_tells fields (Nat.succ.inj sizes) contents
        exact ⟨by rw [Atom.text.inj keys], behind⟩

end

end Expression

namespace Statement

mutual

theorem digest_tells : ∀ statement : Statement, TellsNode digest statement
  | assign key value => by
    intro other rest rest' same
    cases other with
    | assign key' other =>
        obtain ⟨keys, contents⟩ := List.cons.inj (List.cons.inj same).2
        obtain ⟨rfl, behind⟩ := value.digest_tells contents
        exact ⟨by rw [Atom.text.inj keys], behind⟩
    | block => exact absurd (List.cons.inj same).1 (by decide)
  | block name labels body => by
    intro other rest rest' same
    cases other with
    | assign => exact absurd (List.cons.inj same).1 (by decide)
    | block name' labels' body' =>
        obtain ⟨names, sized⟩ := List.cons.inj (List.cons.inj same).2
        obtain ⟨sizes, contents⟩ := List.cons.inj sized
        simp only [List.append_eq, List.append_assoc] at contents
        obtain ⟨rfl, inside⟩ := Expression.digestAll_tells labels (Atom.size.inj sizes) contents
        obtain ⟨sizes, contents⟩ := List.cons.inj inside
        obtain ⟨rfl, behind⟩ := digestAll_tells body (Atom.size.inj sizes) contents
        exact ⟨by rw [Atom.text.inj names], behind⟩

theorem digestAll_tells : ∀ (statements : List Statement) {others rest rest'},
    statements.length = others.length →
      digestAll statements ++ rest = digestAll others ++ rest' →
        statements = others ∧ rest = rest'
  | [], others, rest, rest', sizes, same => by
    cases others with
    | nil => exact ⟨rfl, same⟩
    | cons => cases sizes
  | statement :: statements, others, rest, rest', sizes, same => by
    cases others with
    | nil => cases sizes
    | cons other others =>
        rw [digestAll, digestAll, List.append_assoc, List.append_assoc] at same
        obtain ⟨rfl, contents⟩ := digest_tells statement same
        obtain ⟨rfl, behind⟩ := digestAll_tells statements (Nat.succ.inj sizes) contents
        exact ⟨rfl, behind⟩

end

end Statement

theorem Document.digest_tells (document : Document) : TellsNode digest document := by
  intro other rest rest' same
  obtain ⟨sizes, contents⟩ := List.cons.inj same
  obtain ⟨bodies, behind⟩ := Statement.digestAll_tells document.body (Atom.size.inj sizes) contents
  cases document
  cases other
  exact ⟨congrArg Document.mk bodies, behind⟩

/-! ### Tables of nodes -/

section Firsts

variable {α : Type} [BEq α] {before items : List α} {item other : α}

/-- An item more is found only if none of those before it is. -/
theorem findIdx?_concat : (before ++ [item]).findIdx? (· == other) =
    (before.findIdx? (· == other)).or (if item == other then some before.length else none) := by
  rw [List.findIdx?_append, List.findIdx?_singleton]
  split
  · simp
  · simp

theorem findIdx?_congr [EquivBEq α] (same : (item == other) = true) :
    before.findIdx? (· == item) = before.findIdx? (· == other) := by
  have tests : (fun earlier : α => earlier == item) = (· == other) :=
    funext fun earlier => BEq.congr_right same
  rw [tests]

variable [Hashable α]

/-- With a table that finds the first among the items before, the others are found, too. -/
theorem firstsFrom_eq [EquivBEq α] [LawfulHashable α] {table : Std.HashMap α Nat}
    (known : ∀ item, table[item]? = before.findIdx? (· == item)) :
    firstsFrom before.length table items =
      items.map fun item => (before ++ items).findIdx (· == item) := by
  induction items generalizing before table with
  | nil => rfl
  | cons item rest ih =>
      have longer : (before ++ [item]).length = before.length + 1 := List.length_append
      have whole : before ++ item :: rest = before ++ [item] ++ rest := List.append_cons ..
      cases found : table[item]? with
      | some first =>
          have seen := (known item).symm.trans found
          -- The item adds nothing: what equals it equals the one found before it, too.
          have still : ∀ other, table[other]? = (before ++ [item]).findIdx? (· == other) := by
            intro other
            rw [known, findIdx?_concat]
            split
            next same =>
              rw [← findIdx?_congr same, seen, Option.some_or]
            next => rw [Option.or_none]
          obtain ⟨inside, position⟩ := List.findIdx?_eq_some_iff_findIdx_eq.mp seen
          rw [firstsFrom, found, List.map_cons, List.findIdx_append, position, if_pos inside, whole,
            ← longer]
          exact congrArg (first :: ·) (ih still)
      | none =>
          have unseen := (known item).symm.trans found
          have added : ∀ other, (table.insert item before.length)[other]? =
              (before ++ [item]).findIdx? (· == other) := by
            intro other
            rw [Std.HashMap.getElem?_insert, findIdx?_concat, known]
            split
            next same =>
              rw [← findIdx?_congr same, unseen, Option.none_or]
            next => rw [Option.or_none]
          have position := List.findIdx?_eq_none_iff_findIdx_eq.mp unseen
          rw [firstsFrom, found, List.map_cons, List.findIdx_append, position,
            if_neg (Nat.lt_irrefl _), List.findIdx_cons, BEq.rfl, cond_true, Nat.zero_add, whole,
            ← longer]
          exact congrArg (before.length :: ·) (ih added)

end Firsts

/-! ### Types of nodes -/

/-- How two nodes are compared, and what a node writes to a hash. -/
structure Comparison (α : Type) where
  same : α → α → Bool
  digest : α → List Atom

namespace Comparison

variable {α : Type}

/-- For each item the number of the first one that equals it, by a table that knows of an item only
the hash of what it writes. -/
def firsts (comparison : Comparison α) (hash : List Atom → UInt64) (items : List α) : List Nat :=
  @ConfigLang.firsts α ⟨comparison.same⟩ ⟨fun item => hash (comparison.digest item)⟩ items

/-- Nodes are equal if they are the same tree or, what comes to the same, if they write the same
data. -/
structure Agrees [BEq α] (comparison : Comparison α) : Prop where
  beq_eq_same : ∀ left right : α, (left == right) = comparison.same left right
  equivalence : Equivalence fun left right => comparison.same left right = true
  same_iff_eq : ∀ left right, comparison.same left right = true ↔ left = right
  same_iff_digest : ∀ left right,
    comparison.same left right = true ↔ comparison.digest left = comparison.digest right
  firsts_eq : ∀ (hash : List Atom → UInt64) (items : List α), comparison.firsts hash items =
    items.map fun item => items.findIdx (comparison.same · item)

variable {comparison : Comparison α}

theorem firsts_eq_findIdx
    (equivalence : Equivalence fun left right => comparison.same left right = true)
    (writes : ∀ left right, comparison.same left right = true →
      comparison.digest left = comparison.digest right)
    (hash : List Atom → UInt64) (items : List α) :
    comparison.firsts hash items =
      items.map fun item => items.findIdx (comparison.same · item) := by
  let _ : BEq α := ⟨comparison.same⟩
  let _ : Hashable α := ⟨fun item => hash (comparison.digest item)⟩
  have _ : EquivBEq α :=
    { rfl := equivalence.refl _, symm := equivalence.symm, trans := equivalence.trans }
  have _ : LawfulHashable α := ⟨fun left right same => congrArg hash (writes left right same)⟩
  have empty : ∀ item, (∅ : Std.HashMap α Nat)[item]? = List.findIdx? (· == item) [] :=
    fun _ => Std.HashMap.getElem?_empty
  exact firstsFrom_eq empty

/-- Equality that tells trees apart, and data that do, agree. -/
theorem Agrees.of_tells [BEq α] [LawfulBEq α]
    (same_iff_eq : ∀ left right, comparison.same left right = true ↔ left = right)
    (tells : ∀ node, TellsNode comparison.digest node) : comparison.Agrees := by
  have equivalence : Equivalence fun left right => comparison.same left right = true := by
    simp only [same_iff_eq]
    exact ⟨Eq.refl, Eq.symm, Eq.trans⟩
  have same_iff_digest : ∀ left right, comparison.same left right = true ↔
      comparison.digest left = comparison.digest right := fun left right =>
    ⟨fun same => congrArg _ ((same_iff_eq left right).mp same),
      fun same => (same_iff_eq left right).mpr ((tells left).eq same)⟩
  have beq_eq_same : ∀ left right : α, (left == right) = comparison.same left right :=
    fun left right => Bool.eq_iff_iff.mpr (beq_iff_eq.trans (same_iff_eq left right).symm)
  exact ⟨beq_eq_same, equivalence, same_iff_eq, same_iff_digest,
    firsts_eq_findIdx equivalence fun left right => (same_iff_digest left right).mp⟩

end Comparison

def Expression.comparison : Comparison Expression :=
  ⟨same, digest⟩

def Statement.comparison : Comparison Statement :=
  ⟨same, digest⟩

/-- Documents are compared by their statements. -/
def Document.comparison : Comparison Document :=
  ⟨fun left right => Statement.sameAll left.body right.body, digest⟩

theorem Document.same_iff (left right : Document) :
    comparison.same left right = true ↔ left = right := by
  cases left
  cases right
  rw [mk.injEq]
  exact Statement.sameAll_iff _ _

/-- Documents, statements and expressions are equal if and only if they are the same tree, in which
floats count by their bits and fields by their order, and if and only if they write the same data to
a hash. Whatever the hash, a table finds for each node of a list the first equal one. -/
theorem nodes_agree :
    Document.comparison.Agrees ∧ Statement.comparison.Agrees ∧ Expression.comparison.Agrees :=
  ⟨.of_tells Document.same_iff Document.digest_tells,
    .of_tells Statement.same_iff Statement.digest_tells,
    .of_tells Expression.same_iff Expression.digest_tells⟩

/-- What is not a number equals itself, and zeros of both signs differ. -/
example : Expression.same (.literal (.float .nan)) (.literal (.float .nan)) = true ∧
    Expression.same (.literal (.float ⟨0⟩)) (.literal (.float ⟨0x8000000000000000⟩)) = false := by
  decide

end ConfigLang
