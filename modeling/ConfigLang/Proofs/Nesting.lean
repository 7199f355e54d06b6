import ConfigLang.Proofs.Limits
/-!
How deeply expressions are nested. An expression inside another is further down in the tree, so that no
more of them are nested one in another than the tree has levels.
-/

set_option autoImplicit false

namespace ConfigLang.Grammar

/-- What is of the one phrase and no higher than this is also of the other. -/
def UpTo (limit : Nat) (Value Other : Phrase) : Prop :=
  ∀ ⦃used tree⦄, Value used tree → tree.height ≤ limit → Other used tree

section Heights

variable {limit : Nat} {Value Other : Phrase} {used : List Token} {tree : Tree} {trees : List Tree}

theorem Items.upTo (same : UpTo limit Value Other) (items : Items Value used trees)
    (low : Tree.highest trees ≤ limit) : Items Other used trees := by
  induction items with
  | last item trailing =>
      rw [Tree.highest_cons, Nat.max_le] at low
      exact .last (same item low.1) trailing
  | comma item trailing separates leading =>
      rw [Tree.highest_cons, Nat.max_le] at low
      exact .comma (same item low.1) trailing separates leading
  | more item trailing separates leading _ ih =>
      simp only [Tree.highest_cons, Tree.highest_append, Nat.max_le] at low
      exact .more (same item low.1) trailing separates leading (ih low.2.2.2)

theorem Elements.upTo (same : UpTo limit Value Other) (elements : Elements Value used trees)
    (low : Tree.highest trees ≤ limit) : Elements Other used trees := by
  have element : ∀ {used tree}, Element Value used tree → tree.height ≤ limit →
      Element Other used tree := by
    rintro _ _ ⟨named, assigns, item⟩ low
    simp only [Tree.height_node, Tree.highest_cons] at low
    exact .mk named assigns (same item (by omega))
  induction elements with
  | none => exact .none
  | last item =>
      rw [Tree.highest_cons, Nat.max_le] at low
      exact .last (element item low.1)
  | more item separates _ ih =>
      simp only [Tree.highest_cons, Tree.highest_append, Nat.max_le] at low
      exact .more (element item low.1) separates (ih low.2.2)

theorem Primary.upTo (same : UpTo limit Value Other) (primary : Primary Value used trees)
    (low : Tree.highest trees ≤ limit) : Primary Other used trees := by
  cases primary with
  | int is => exact .int is
  | float is => exact .float is
  | string is => exact .string is
  | name is => exact .name is
  | group opens leading item trailing closes =>
      simp only [Tree.highest_append, Tree.highest_cons, Nat.max_le] at low
      exact .group opens leading (same item low.2.1) trailing closes
  | call named opens leading inner closes =>
      refine .call named opens leading ?_ closes
      cases inner with
      | none => exact .none
      | some items =>
          simp only [Tree.height_node, Tree.highest_cons, Tree.highest_append] at low
          exact .some (items.upTo same (by omega))
  | tuple opens leading inner closes =>
      refine .tuple opens leading ?_ closes
      cases inner with
      | none => exact .none
      | some items =>
          simp only [Tree.height_node, Tree.highest_cons, Tree.highest_append] at low
          exact .some (items.upTo same (by omega))
  | object opens leading inner closes =>
      simp only [Tree.height_node, Tree.highest_cons, Tree.highest_append] at low
      exact .object opens leading (inner.upTo same (by omega)) closes

/-- A step makes a term higher. -/
theorem Steps.height_le {line : Nat} {term last : Tree} (steps : Steps line used term last) :
    term.height ≤ last.height := by
  induction steps with
  | none => exact Nat.le_refl _
  | @more _ _ step term _ _ _ ih =>
      have higher := Tree.height_project line term step
      omega

theorem Operation.upTo (same : UpTo limit Value Other) (operation : Operation Value used tree)
    (low : tree.height ≤ limit + 1) : Operation Other used tree := by
  have term : ∀ {used tree}, Term Value used tree → tree.height ≤ limit + 1 →
      Term Other used tree := by
    rintro _ _ ⟨first, follow⟩ low
    have higher := follow.height_le
    rw [Tree.height_node] at higher
    exact .mk (first.upTo same (by omega)) follow
  have operand : ∀ {used tree}, Operand Value used tree → tree.height ≤ limit + 1 →
      Operand Other used tree := by
    intro _ _ operand low
    cases operand with
    | plain inner => exact .plain (term inner low)
    | signed signs inner =>
        simp only [Tree.height_node, Tree.highest_cons] at low
        exact .signed signs (term inner (by omega))
  cases operation with
  | single inner => exact .single (operand inner low)
  | binary inner joins newlines rest =>
      simp only [Tree.height_node, Tree.highest_cons, Tree.highest_append] at low
      exact .binary (operand inner (by omega)) joins newlines (same rest (by omega))

end Heights

/-- At most as many expressions are nested one in another as the tree has levels. -/
theorem Expr.of_height_le {depth limit : Nat} {used : List Token} {tree : Tree}
    (expr : Expr depth used tree) (low : tree.height ≤ limit) : Expr limit used tree := by
  induction depth generalizing limit used tree with
  | zero => cases expr
  | succ depth ih =>
      cases limit with
      | zero =>
          have some := Tree.one_le_height tree
          omega
      | succ limit => exact Operation.upTo (fun _ _ => ih) expr low

end ConfigLang.Grammar
