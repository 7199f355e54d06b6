import ConfigLang.Proofs.Ebnf
import Mathlib.Order.CompletePartialOrder
/-!
The grammar without a limit on nesting. A word is in one of its languages if it is with some limit,
and for these languages the recursion of the grammar is an equation.
-/

set_option autoImplicit false

namespace ConfigLang.Ebnf

open scoped Computability

/-- Languages that grow with a limit, and the language of all their words. -/
structure Approaches (family : Nat → Language Kind) (whole : Language Kind) : Prop where
  grows : Monotone family
  mem_iff : ∀ word, word ∈ whole ↔ ∃ depth, word ∈ family depth

namespace Approaches

variable {family other : Nat → Language Kind} {whole more : Language Kind}

theorem mem {depth : Nat} {word : List Kind} (approaches : Approaches family whole)
    (inside : word ∈ family depth) : word ∈ whole :=
  (approaches.mem_iff word).mpr ⟨depth, inside⟩

/-- Only one language is approached. -/
theorem eq (first : Approaches family whole) (second : Approaches family more) : whole = more := by
  apply Language.ext
  intro word
  rw [first.mem_iff, second.mem_iff]

theorem const (language : Language Kind) : Approaches (fun _ => language) language :=
  ⟨monotone_const, fun _ => ⟨fun inside => ⟨0, inside⟩, fun ⟨_, inside⟩ => inside⟩⟩

/-- The first language does not matter. -/
theorem later (approaches : Approaches family whole) :
    Approaches (fun depth => family (depth + 1)) whole := by
  refine ⟨fun low high le => approaches.grows (Nat.succ_le_succ le), fun word => ?_⟩
  rw [approaches.mem_iff]
  constructor
  · rintro ⟨depth, inside⟩
    exact ⟨depth, approaches.grows (Nat.le_succ depth) inside⟩
  · rintro ⟨depth, inside⟩
    exact ⟨depth + 1, inside⟩

theorem add (first : Approaches family whole) (second : Approaches other more) :
    Approaches (fun depth => family depth + other depth) (whole + more) := by
  refine ⟨fun low high le => add_le_add (first.grows le) (second.grows le), fun word => ?_⟩
  simp only [Language.mem_add, first.mem_iff, second.mem_iff, exists_or]

theorem mul (first : Approaches family whole) (second : Approaches other more) :
    Approaches (fun depth => family depth * other depth) (whole * more) := by
  have grows : Monotone fun depth => family depth * other depth :=
    fun low high le => mul_le_mul' (first.grows le) (second.grows le)
  refine ⟨grows, fun word => ⟨?_, ?_⟩⟩
  · rintro ⟨left, inFirst, right, inSecond, rfl⟩
    obtain ⟨low, inFirst⟩ := (first.mem_iff left).mp inFirst
    obtain ⟨high, inSecond⟩ := (second.mem_iff right).mp inSecond
    have inLeft := first.grows (Nat.le_max_left low high) inFirst
    have inRight := second.grows (Nat.le_max_right low high) inSecond
    exact ⟨max low high, Language.append_mem_mul inLeft inRight⟩
  · rintro ⟨depth, left, inFirst, right, inSecond, rfl⟩
    exact Language.append_mem_mul (first.mem inFirst) (second.mem inSecond)

theorem star (approaches : Approaches family whole) :
    Approaches (fun depth => (family depth)∗) whole∗ := by
  have grows : Monotone fun depth => (family depth)∗ :=
    fun low high le => kstar_mono (approaches.grows le)
  refine ⟨grows, fun word => ⟨?_, ?_⟩⟩
  · rw [Language.mem_kstar]
    rintro ⟨words, rfl, inner⟩
    induction words with
    | nil => exact ⟨0, Language.nil_mem_kstar _⟩
    | cons first words ih =>
        obtain ⟨one, others⟩ := List.forall_mem_cons.mp inner
        obtain ⟨high, more⟩ := ih others
        obtain ⟨low, one⟩ := (approaches.mem_iff first).mp one
        have oneLater := approaches.grows (Nat.le_max_left low high) one
        have moreLater := grows (Nat.le_max_right low high) more
        refine ⟨max low high, ?_⟩
        rw [← Language.one_add_self_mul_kstar_eq_kstar]
        exact .inr (Language.append_mem_mul oneLater moreLater)
  · rintro ⟨depth, repetition⟩
    obtain ⟨words, rfl, inner⟩ := Language.mem_kstar.mp repetition
    exact Language.mem_kstar.mpr ⟨words, rfl, fun word member => approaches.mem (inner word member)⟩

theorem optional (approaches : Approaches family whole) :
    Approaches (fun depth => Ebnf.optional (family depth)) (Ebnf.optional whole) :=
  (const 1).add approaches

theorem enclosed (opening closing : Kind) (approaches : Approaches family whole) :
    Approaches (fun depth => Ebnf.enclosed opening (family depth) closing)
      (Ebnf.enclosed opening whole closing) :=
  (const _).mul ((const _).mul (approaches.mul (const _)))

theorem items (approaches : Approaches family whole) :
    Approaches (fun depth => Ebnf.items (family depth)) (Ebnf.items whole) := by
  have next := (const (mark .comma)).mul ((const lines).mul (approaches.mul (const lines)))
  exact approaches.mul ((const _).mul (next.star.mul (const _)))

theorem elems (approaches : Approaches family whole) :
    Approaches (fun depth => Ebnf.elems (family depth)) (Ebnf.elems whole) := by
  have elem : Approaches (fun depth => Ebnf.elem (family depth)) (Ebnf.elem whole) :=
    (const key).mul ((const _).mul approaches)
  have next := (const sep).mul elem
  exact (elem.mul (next.star.mul (const _))).optional

theorem primary (approaches : Approaches family whole) :
    Approaches (fun depth => Ebnf.primary (family depth)) (Ebnf.primary whole) := by
  have group := (approaches.mul (const lines)).enclosed .leftParen .rightParen
  have call := (const ident).mul (approaches.items.optional.enclosed .leftParen .rightParen)
  have tuple := approaches.items.optional.enclosed .leftBracket .rightBracket
  have object := approaches.elems.enclosed .leftBrace .rightBrace
  have compound := group.add (call.add (tuple.add object))
  exact (const int).add ((const float).add ((const string).add ((const ident).add compound)))

theorem operation (approaches : Approaches family whole) :
    Approaches (fun depth => Ebnf.operation (family depth)) (Ebnf.operation whole) := by
  have operand := (const (Ebnf.optional (mark .minus + mark .bang))).mul
    (approaches.primary.mul (const proj∗))
  exact operand.mul ((const binop).mul ((const lines).mul approaches)).optional

theorem body (approaches : Approaches family whole) :
    Approaches (fun depth => Ebnf.body (family depth)) (Ebnf.body whole) := by
  have more := ((const someLines).mul approaches).star
  exact (const lines).mul ((approaches.mul more).optional.mul (const lines))

theorem stmt (expr : Approaches family whole) (block : Approaches other more) :
    Approaches (fun depth => Ebnf.stmt (family depth) (other depth)) (Ebnf.stmt whole more) :=
  ((const ident).mul ((const _).mul expr)).add block

theorem labelled (approaches : Approaches family whole) :
    Approaches (fun depth => Ebnf.labelled (family depth)) (Ebnf.labelled whole) := by
  have inside := (const (mark .leftBrace)).mul (approaches.body.mul (const (mark .rightBrace)))
  exact (const ident).mul ((const key∗).mul inside)

end Approaches

/-! ### Documents of any depth -/

/-- `expr` -/
def anyExpr : Language Kind :=
  {word | ∃ depth, word ∈ expr depth}

def anyBlock : Language Kind :=
  {word | ∃ depth, word ∈ block depth}

/-- `stmt` -/
def anyStmt : Language Kind :=
  stmt anyExpr anyBlock

/-- `document` -/
def anyDocument : Language Kind :=
  body anyStmt

theorem operation_mono : Monotone operation := by
  intro low high le
  unfold operation operand primary group call tuple object items elems elem optional enclosed
  gcongr

theorem stmt_mono {low high lowBlock highBlock : Language Kind} (expr : low ≤ high)
    (block : lowBlock ≤ highBlock) : stmt low lowBlock ≤ stmt high highBlock := by
  unfold stmt
  gcongr

theorem labelled_mono : Monotone labelled := by
  intro low high le
  unfold labelled body optional
  gcongr

theorem approaches_expr : Approaches expr anyExpr := by
  refine ⟨monotone_nat_of_le_succ fun depth => ?_, fun _ => Iff.rfl⟩
  induction depth with
  | zero => exact fun _ absurd => absurd.elim
  | succ depth ih => exact operation_mono ih

theorem approaches_block : Approaches block anyBlock := by
  refine ⟨monotone_nat_of_le_succ fun depth => ?_, fun _ => Iff.rfl⟩
  induction depth with
  | zero => exact fun _ absurd => absurd.elim
  | succ depth ih =>
      exact labelled_mono (stmt_mono (approaches_expr.grows (Nat.le_succ depth)) ih)

/-- An expression is an operation on expressions. -/
theorem anyExpr_eq : anyExpr = operation anyExpr :=
  approaches_expr.later.eq approaches_expr.operation

/-- A block holds statements with expressions and blocks. -/
theorem anyBlock_eq : anyBlock = labelled anyStmt :=
  approaches_block.later.eq (approaches_expr.stmt approaches_block).labelled

/-- A document has no limit on nesting if it is one with some limit. -/
theorem mem_anyDocument {word : List Kind} :
    word ∈ anyDocument ↔ ∃ depth, word ∈ document depth :=
  (approaches_expr.stmt approaches_block).body.mem_iff word

end ConfigLang.Ebnf
