import ConfigLang.Operators
import ConfigLang.Recorder
/-!
Kinds of formulas. The operators of the standard table convert nothing, so that the kinds of the
names in a formula tell the kind of its value. A formula with a kind has a value of this kind,
unless arithmetic fails, and a formula without one has no value.
-/

set_option autoImplicit false

namespace ConfigLang

variable {σ κ φ : Type}

/-! ### Handlers by signature -/

namespace OperatorTable

section Insert

variable (table : OperatorTable) (signature : Signature) (handler : Handler)

theorem find?_insert (other : Signature) :
    (table.insert signature handler).find? other =
      if other = signature then some handler else table.find? other := by
  split
  next same =>
    rw [same]
    exact find?_insert_self table signature handler
  next different => exact find?_insert_of_ne table signature other handler different

theorem find?_insertKinds (op : BinaryOperator) (kinds : List String) :
    (kinds.foldl (fun table kind => table.insert ⟨op, kind, kind⟩ handler) table).find? signature =
      if signature.op = op ∧ signature.left ∈ kinds ∧ signature.right = signature.left then
        some handler
      else table.find? signature := by
  induction kinds generalizing table with
  | nil => simp
  | cons kind kinds ih =>
      obtain ⟨other, left, right⟩ := signature
      rw [List.foldl_cons, ih, find?_insert]
      by_cases first : left = kind
      · subst first
        simp only [Signature.mk.injEq, List.mem_cons, true_or, true_and]
        grind
      · simp only [Signature.mk.injEq, List.mem_cons, first, false_or, false_and, and_false,
          ↓reduceIte]

/-- A handler that is inserted for operators and kinds is found for these operators where both
operands are of one of these kinds. -/
theorem find?_insertAll (ops : List BinaryOperator) (kinds : List String) :
    (table.insertAll ops kinds handler).find? signature =
      if signature.op ∈ ops ∧ signature.left ∈ kinds ∧ signature.right = signature.left then
        some handler
      else table.find? signature := by
  unfold insertAll
  induction ops generalizing table with
  | nil => simp
  | cons op ops ih =>
      rw [List.foldl_cons, ih, find?_insertKinds]
      by_cases first : signature.op = op
      · simp only [first, List.mem_cons, true_or, true_and]
        grind
      · simp only [first, List.mem_cons, false_or, false_and, ↓reduceIte]

end Insert

end OperatorTable

/-! ### Kinds -/

inductive ScalarKind where
  | null
  | bool
  | int
  | float
  | string
deriving DecidableEq, Repr

namespace ScalarKind

def of : Scalar → ScalarKind
  | .null => null
  | .bool _ => bool
  | .int _ => int
  | .float _ => float
  | .string _ => string

def name : ScalarKind → String
  | null => "null"
  | bool => "bool"
  | int => "int"
  | float => "float"
  | string => "string"

@[simp] theorem name_of (scalar : Scalar) : (of scalar).name = scalar.kind := by
  cases scalar with
  | _ => rfl

theorem name_inj {kind other : ScalarKind} : kind.name = other.name ↔ kind = other := by
  cases kind <;> cases other <;> simp [name]

variable {scalar : Scalar}

theorem of_eq_bool : of scalar = bool ↔ ∃ value, scalar = .bool value := by
  cases scalar <;> simp [of]

theorem of_eq_int : of scalar = int ↔ ∃ value, scalar = .int value := by
  cases scalar <;> simp [of]

theorem of_eq_float : of scalar = float ↔ ∃ value, scalar = .float value := by
  cases scalar <;> simp [of]

theorem of_eq_string : of scalar = string ↔ ∃ value, scalar = .string value := by
  cases scalar <;> simp [of]

end ScalarKind

/-- The kind that a sign gives to a scalar. -/
def UnaryOperator.kind? : UnaryOperator → ScalarKind → Option ScalarKind
  | .neg, .int => some .int
  | .neg, .float => some .float
  | .not, .bool => some .bool
  | _, _ => none

/-- What an operator is about. -/
inductive OperatorFamily where
  | arithmetic
  | order
  | equality
  | logic
deriving DecidableEq, Repr

def BinaryOperator.family : BinaryOperator → OperatorFamily
  | .add | .sub | .mul | .div | .mod => .arithmetic
  | .less | .greater | .lessEq | .greaterEq => .order
  | .eq | .notEq => .equality
  | .and | .or => .logic

namespace OperatorFamily

/-- The kind that operators give to two scalars of one kind. -/
def kind? : OperatorFamily → ScalarKind → Option ScalarKind
  | arithmetic, .int => some .int
  | arithmetic, .float => some .float
  | order, .int => some .bool
  | order, .float => some .bool
  | order, .string => some .bool
  | equality, _ => some .bool
  | logic, .bool => some .bool
  | _, _ => none

/-- The handler for two scalars of one kind. -/
def handler? : OperatorFamily → ScalarKind → Option Handler
  | arithmetic, .int => some Handler.integers
  | arithmetic, .float => some Handler.floats
  | order, .int => some Handler.comparison
  | order, .float => some Handler.comparison
  | order, .string => some Handler.comparison
  | equality, _ => some Handler.equality
  | logic, .bool => some Handler.logic
  | _, _ => none

end OperatorFamily

/-- The kind that an operator gives to two scalars, none if their kinds differ. -/
def BinaryOperator.kind? (op : BinaryOperator) (left right : ScalarKind) : Option ScalarKind :=
  if right = left then op.family.kind? left else none

theorem OperatorTable.find?_standard (op : BinaryOperator) (left right : ScalarKind) :
    standard.find? ⟨op, left.name, right.name⟩ =
      if right = left then op.family.handler? left else none := by
  simp only [standard, find?_insertAll, find?_empty, ScalarKind.name_inj]
  by_cases same : right = left
  · simp only [same, and_true, ↓reduceIte]
    cases op <;> cases left <;> rfl
  · simp only [same, and_false, ↓reduceIte]

/-! ### Results of operators -/

/-- A scalar of the kind, or a failure of arithmetic. -/
inductive IsOfKind (kind : ScalarKind) : Except Failure Scalar → Prop
  | scalar {scalar : Scalar} (is : .of scalar = kind) : IsOfKind kind (.ok scalar)
  | arithmetic {op message : String} : IsOfKind kind (.error (.arithmetic op message))

namespace Operators

section Binary

variable {op : BinaryOperator} {left right : Scalar}

theorem binary_of_same (same : ScalarKind.of right = .of left) :
    binary .standard op left right =
      match op.family.handler? (.of left) with
      | some handler => handler op left right
      | none => .error (.typeMismatch op.symbol left.kind right.kind) := by
  have found := OperatorTable.find?_standard op (.of left) (.of right)
  rw [if_pos same, ScalarKind.name_of, ScalarKind.name_of] at found
  unfold binary OperatorTable.evaluate?
  rw [found]
  cases op.family.handler? (.of left) with
  | some handler => rfl
  | none => rfl

theorem binary_of_other (other : ScalarKind.of right ≠ .of left) :
    binary .standard op left right = .error (.typeMismatch op.symbol left.kind right.kind) := by
  have found := OperatorTable.find?_standard op (.of left) (.of right)
  rw [if_neg other, ScalarKind.name_of, ScalarKind.name_of] at found
  unfold binary OperatorTable.evaluate?
  rw [found]
  rfl

theorem integers_of_arithmetic (is : op.family = .arithmetic) (left right : Int64) :
    IsOfKind .int (Handler.integers op (.int left) (.int right)) := by
  have given : ∃ value?, Handler.integer? op left right = some value? := by
    cases op with
    | add | sub | mul | div | mod => exact ⟨_, rfl⟩
    | _ => cases is
  obtain ⟨value?, given⟩ := given
  simp only [Handler.integers, given]
  cases value? with
  | some value => exact .scalar rfl
  | none => exact .arithmetic

theorem floats_of_arithmetic (is : op.family = .arithmetic) (left right : Binary64) :
    IsOfKind .float (Handler.floats op (.float left) (.float right)) := by
  have given : ∃ value, Handler.float? op left right = some value := by
    cases op with
    | add | sub | mul | div | mod => exact ⟨_, rfl⟩
    | _ => cases is
  obtain ⟨value, given⟩ := given
  simp only [Handler.floats, given]
  exact .scalar rfl

theorem equality_of_same (same : ScalarKind.of right = .of left) :
    IsOfKind .bool (Handler.equality op left right) := by
  cases left <;> cases right <;> first | exact .scalar rfl | cases same

theorem logic_of_logic (is : op.family = .logic) (left right : Bool) :
    IsOfKind .bool (Handler.logic op (.bool left) (.bool right)) := by
  cases op with
  | and | or => exact .scalar rfl
  | _ => cases is

/-- The handlers agree with the kinds: each is there for kinds that it is defined for. -/
theorem binary_isOfKind (op : BinaryOperator) (left right : Scalar) :
    match op.kind? (.of left) (.of right) with
    | some kind => IsOfKind kind (binary .standard op left right)
    | none =>
      binary .standard op left right = .error (.typeMismatch op.symbol left.kind right.kind) := by
  unfold BinaryOperator.kind?
  by_cases same : ScalarKind.of right = .of left
  · rw [if_pos same, binary_of_same same]
    cases family : op.family with
    | arithmetic =>
        cases left with
        | int left =>
            obtain ⟨right, rfl⟩ := ScalarKind.of_eq_int.mp same
            exact integers_of_arithmetic family left right
        | float left =>
            obtain ⟨right, rfl⟩ := ScalarKind.of_eq_float.mp same
            exact floats_of_arithmetic family left right
        | _ => rfl
    | order =>
        cases left with
        | int left =>
            obtain ⟨right, rfl⟩ := ScalarKind.of_eq_int.mp same
            exact .scalar rfl
        | float left =>
            obtain ⟨right, rfl⟩ := ScalarKind.of_eq_float.mp same
            exact .scalar rfl
        | string left =>
            obtain ⟨right, rfl⟩ := ScalarKind.of_eq_string.mp same
            exact .scalar rfl
        | _ => rfl
    | equality => exact equality_of_same same
    | logic =>
        cases left with
        | bool left =>
            obtain ⟨right, rfl⟩ := ScalarKind.of_eq_bool.mp same
            exact logic_of_logic family left right
        | _ => rfl
  · rw [if_neg same]
    exact binary_of_other same

end Binary

theorem unary_isOfKind (op : UnaryOperator) (operand : Scalar) :
    match op.kind? (.of operand) with
    | some kind => IsOfKind kind (unary op operand)
    | none => unary op operand = .error (.invalidOperand op.symbol operand.kind) := by
  cases op with
  | neg =>
      cases operand with
      | int value =>
          change IsOfKind .int (unary .neg (.int value))
          unfold unary
          dsimp only
          split
          · exact .scalar rfl
          · exact .arithmetic
      | float value => exact .scalar rfl
      | _ => rfl
  | not =>
      cases operand with
      | bool value => exact .scalar rfl
      | _ => rfl

end Operators

/-! ### Formulas -/

namespace Expression

/-- Literals and names, and signs and operators on them. -/
inductive IsFormula : Expression → Prop
  | literal {value : Scalar} : IsFormula (.literal value)
  | identifier {name : String} : IsFormula (.identifier name)
  | unary {op : UnaryOperator} {operand : Expression} (inner : IsFormula operand) :
      IsFormula (.unary op operand)
  | binary {op : BinaryOperator} {left right : Expression} (first : IsFormula left)
      (second : IsFormula right) : IsFormula (.binary op left right)

/-- The names in a formula, in the order in which they stand. -/
def names : Expression → List String
  | .identifier name => [name]
  | .unary _ operand => operand.names
  | .binary _ left right => left.names ++ right.names
  | _ => []

end Expression

namespace Host

variable (host : Host σ κ φ) (on : κ)

/-- The state after some names have been read, one after the other. -/
def afterNames (names : List String) (state : σ) : σ :=
  names.foldl (fun state name => (host.getAttribute on name state).2) state

/-- Names that are read one after the other are all answered with scalars. -/
def Resolves : List String → σ → Prop
  | [], _ => True
  | name :: rest, state =>
    (∃ scalar, (host.getAttribute on name state).1 = .ok (.scalar scalar)) ∧
      Resolves rest (host.getAttribute on name state).2

/-- The kind of a formula in a state. A name is of the kind of the scalar that it is answered with,
where it is read after the names before it. -/
def kind? : Expression → σ → Option ScalarKind
  | .literal value, _ => some (.of value)
  | .identifier name, state =>
    match (host.getAttribute on name state).1 with
    | .ok (.scalar scalar) => some (.of scalar)
    | _ => none
  | .unary op operand, state => do op.kind? (← kind? operand state)
  | .binary op left right, state => do
    op.kind? (← kind? left state) (← kind? right (host.afterNames on left.names state))
  | _, _ => none

variable {host on}

@[simp] theorem afterNames_append (names others : List String) (state : σ) :
    host.afterNames on (names ++ others) state =
      host.afterNames on others (host.afterNames on names state) :=
  List.foldl_append

theorem resolves_append {names others : List String} {state : σ} :
    host.Resolves on (names ++ others) state ↔
      host.Resolves on names state ∧ host.Resolves on others (host.afterNames on names state) := by
  induction names generalizing state with
  | nil => simp [Resolves, afterNames]
  | cons name names ih =>
      rw [List.cons_append, Resolves, Resolves, ih, and_assoc]
      rfl

end Host

/-! ### Operations in a run -/

namespace Operators

variable (host : Host σ κ φ) (table : OperatorTable) (on : κ) {state : σ} {failure : Failure}

section Unary

variable (op : UnaryOperator)

theorem unary_of_error {operand : Operand σ κ}
    (failed : (operand.evaluate state).result = .error failure) :
    ((extension host table).unary on op operand state).result = .error failure := by
  change ((operand.evaluate >>= _) state).result = _
  rw [Run.bind_of_error _ _ _ _ failed]

theorem unary_of_scalar {operand : Operand σ κ} {scalar : Scalar}
    (success : (operand.evaluate state).result = .ok (.scalar scalar)) :
    ((extension host table).unary on op operand state).result =
        (unary op scalar).map Value.scalar ∧
      ((extension host table).unary on op operand state).state =
        (operand.evaluate state).state := by
  change ((operand.evaluate >>= _) state).result = _ ∧ ((operand.evaluate >>= _) state).state = _
  rw [Run.bind_of_ok _ _ _ _ success]
  change ((Run.ofExcept (unary op scalar) >>= _) (operand.evaluate state).state).result = _ ∧
    ((Run.ofExcept (unary op scalar) >>= _) (operand.evaluate state).state).state = _
  cases unary op scalar with
  | ok result => exact ⟨rfl, rfl⟩
  | error failure => exact ⟨rfl, rfl⟩

end Unary

section Binary

variable (op : BinaryOperator)

theorem binary_of_left_error {left right : Operand σ κ}
    (failed : (left.evaluate state).result = .error failure) :
    ((extension host table).binary on op left right state).result = .error failure := by
  change ((left.evaluate >>= _) state).result = _
  rw [Run.bind_of_error _ _ _ _ failed]

theorem binary_of_right_error {left right : Operand σ κ} {scalar : Scalar}
    (success : (left.evaluate state).result = .ok (.scalar scalar))
    (failed : (right.evaluate (left.evaluate state).state).result = .error failure) :
    ((extension host table).binary on op left right state).result = .error failure := by
  change ((left.evaluate >>= _) state).result = _
  rw [Run.bind_of_ok _ _ _ _ success]
  change ((right.evaluate >>= _) (left.evaluate state).state).result = _
  rw [Run.bind_of_error _ _ _ _ failed]

theorem binary_of_scalars {left right : Operand σ κ} {first second : Scalar}
    (before : (left.evaluate state).result = .ok (.scalar first))
    (behind : (right.evaluate (left.evaluate state).state).result = .ok (.scalar second)) :
    ((extension host table).binary on op left right state).result =
        (binary table op first second).map Value.scalar ∧
      ((extension host table).binary on op left right state).state =
        (right.evaluate (left.evaluate state).state).state := by
  change ((left.evaluate >>= _) state).result = _ ∧ ((left.evaluate >>= _) state).state = _
  rw [Run.bind_of_ok _ _ _ _ before]
  change ((right.evaluate >>= _) (left.evaluate state).state).result = _ ∧
    ((right.evaluate >>= _) (left.evaluate state).state).state = _
  rw [Run.bind_of_ok _ _ _ _ behind]
  generalize (right.evaluate (left.evaluate state).state).state = last
  change ((Run.ofExcept (binary table op first second) >>= _) last).result = _ ∧
    ((Run.ofExcept (binary table op first second) >>= _) last).state = _
  cases binary table op first second with
  | ok result => exact ⟨rfl, rfl⟩
  | error failure => exact ⟨rfl, rfl⟩

end Binary

end Operators

/-- What a run comes to, by the kind of its formula: a scalar of the kind in the state behind all
names, or a failure of arithmetic, and without a kind some failure. -/
inductive Settles (outcome : Outcome σ (Query κ) Value) (after : σ) : Option ScalarKind → Prop
  | scalar {scalar : Scalar} (success : outcome.result = .ok (.scalar scalar))
      (left : outcome.state = after) : Settles outcome after (some (.of scalar))
  | arithmetic {kind : ScalarKind} {op message : String}
      (failed : outcome.result = .error (.arithmetic op message)) :
      Settles outcome after (some kind)
  | refused {failure : Failure} (failed : outcome.result = .error failure) :
      Settles outcome after none

namespace Settles

variable {outcome : Outcome σ (Query κ) Value} {after : σ}

/-- A failed part fails the whole, which has a kind only if the part has one. -/
theorem of_arithmetic {op message : String} {kind? : Option ScalarKind}
    (failed : outcome.result = .error (.arithmetic op message)) : Settles outcome after kind? := by
  cases kind? with
  | some kind => exact .arithmetic failed
  | none => exact .refused failed

theorem of_isOfKind {result : Except Failure Scalar} {kind : ScalarKind}
    (is : IsOfKind kind result) (same : outcome.result = result.map Value.scalar)
    (left : outcome.state = after) : Settles outcome after (some kind) := by
  cases is with
  | scalar is =>
      subst is
      exact .scalar same left
  | arithmetic => exact .arithmetic same

end Settles

namespace Host

variable {host : Host σ κ φ} {on : κ}

theorem unary_settles {op : UnaryOperator} {operand : Operand σ κ} {state after : σ}
    {kind? : Option ScalarKind} (settles : Settles (operand.evaluate state) after kind?) :
    Settles ((Operators.extension host .standard).unary on op operand state) after
      (kind?.bind op.kind?) := by
  cases settles with
  | @scalar scalar success left =>
      obtain ⟨result, last⟩ := Operators.unary_of_scalar host .standard on op success
      have agrees := Operators.unary_isOfKind op scalar
      rw [Option.bind_some]
      cases has : op.kind? (.of scalar) with
      | some kind =>
          rw [has] at agrees
          exact .of_isOfKind agrees result (last.trans left)
      | none =>
          rw [has] at agrees
          rw [agrees] at result
          exact .refused result
  | arithmetic failed => exact .of_arithmetic (Operators.unary_of_error host .standard on op failed)
  | refused failed => exact .refused (Operators.unary_of_error host .standard on op failed)

theorem binary_settles {op : BinaryOperator} {left right : Operand σ κ} {state middle after : σ}
    {first? second? : Option ScalarKind} (before : Settles (left.evaluate state) middle first?)
    (behind : Settles (right.evaluate middle) after second?) :
    Settles ((Operators.extension host .standard).binary on op left right state) after
      (first?.bind fun first => second?.bind fun second => op.kind? first second) := by
  cases before with
  | @scalar first success reached =>
      subst reached
      cases behind with
      | @scalar second follow last =>
          obtain ⟨result, ends⟩ := Operators.binary_of_scalars host .standard on op success follow
          have agrees := Operators.binary_isOfKind op first second
          rw [Option.bind_some, Option.bind_some]
          cases has : op.kind? (.of first) (.of second) with
          | some kind =>
              rw [has] at agrees
              exact .of_isOfKind agrees result (ends.trans last)
          | none =>
              rw [has] at agrees
              rw [agrees] at result
              exact .refused result
      | arithmetic failed =>
          exact .of_arithmetic (Operators.binary_of_right_error host .standard on op success failed)
      | refused failed =>
          exact .refused (Operators.binary_of_right_error host .standard on op success failed)
  | arithmetic failed =>
      exact .of_arithmetic (Operators.binary_of_left_error host .standard on op failed)
  | refused failed => exact .refused (Operators.binary_of_left_error host .standard on op failed)

theorem attr_settles {name : String} {state : σ} (resolves : host.Resolves on [name] state) :
    Settles (host.attr on name state) (host.afterNames on [name] state)
      (host.kind? on (.identifier name) state) := by
  obtain ⟨⟨scalar, answered⟩, -⟩ := resolves
  have success : (host.attr on name state).result = .ok (.scalar scalar) := by
    change (host.getAttribute on name state).1.mapError _ = _
    rw [answered]
    rfl
  rw [kind?, answered]
  exact .scalar success rfl

/-- By induction on the formula. The right operand is evaluated only where the left one has a value,
and then in the state behind the names of the left one. -/
theorem formula_settles {formula : Expression} (is : formula.IsFormula) {state : σ}
    (resolves : host.Resolves on formula.names state) :
    Settles (Evaluator.operators host .standard on formula state)
      (host.afterNames on formula.names state) (host.kind? on formula state) := by
  unfold Evaluator.operators
  induction is generalizing state with
  | literal =>
      rw [Evaluation.evaluate]
      exact .scalar rfl rfl
  | identifier =>
      rw [Evaluation.evaluate]
      exact attr_settles resolves
  | unary inner ih =>
      rw [Evaluation.evaluate, kind?]
      exact unary_settles (ih resolves)
  | binary first second before behind =>
      obtain ⟨left, right⟩ := resolves_append.mp resolves
      rw [Evaluation.evaluate, kind?, Expression.names, afterNames_append]
      exact binary_settles (before left) (behind right)

end Host

/-- A formula of which the host answers all names with scalars. If it has a kind, evaluation gives a
scalar of this kind or fails in arithmetic, so that no operator meets kinds that it is not defined
for. If it has none, evaluation gives no value. -/
theorem Evaluator.formula_kind (host : Host σ κ φ) (on : κ) {formula : Expression}
    (is : formula.IsFormula) {state : σ} (resolves : host.Resolves on formula.names state) :
    (∀ kind, host.kind? on formula state = some kind →
      (∃ scalar, (operators host .standard on formula state).result = .ok (.scalar scalar) ∧
        ScalarKind.of scalar = kind) ∨
      ∃ op message, (operators host .standard on formula state).result =
        .error (.arithmetic op message)) ∧
    (host.kind? on formula state = none →
      ∀ value, (operators host .standard on formula state).result ≠ .ok value) := by
  have settles := Host.formula_settles is resolves
  constructor
  · intro kind has
    rw [has] at settles
    cases settles with
    | scalar success => exact .inl ⟨_, success, rfl⟩
    | arithmetic failed => exact .inr ⟨_, _, failed⟩
  · intro none value success
    rw [none] at settles
    cases settles with
    | refused failed =>
        rw [success] at failed
        cases failed

/-- A comparison and a negation of names that a host knows. -/
theorem Evaluator.formula_kind_recorded :
    let host := Recorder.host { «variables» :=
      [("count", .scalar (.int 3)), ("off", .scalar (.bool false))] }
    let formula : Expression := .binary .and
      (.binary .less (.unary .neg (.identifier "count")) (.literal (.int 10)))
      (.unary .not (.identifier "off"))
    formula.IsFormula ∧ host.Resolves (.recorded 0) formula.names .initial ∧
      host.kind? (.recorded 0) formula .initial = some .bool ∧
      ∃ scalar, (operators host .standard (.recorded 0) formula .initial).result =
        .ok (.scalar scalar) ∧ ScalarKind.of scalar = .bool := by
  intro host formula
  have is : formula.IsFormula :=
    .binary (.binary (.unary .identifier) .literal) (.unary .identifier)
  have resolves : host.Resolves (.recorded 0) formula.names .initial :=
    ⟨⟨.int 3, rfl⟩, ⟨.bool false, rfl⟩, trivial⟩
  have has : host.kind? (.recorded 0) formula .initial = some .bool := rfl
  have success : (operators host .standard (.recorded 0) formula .initial).result.isOk = true := rfl
  refine ⟨is, resolves, has,
    ((formula_kind host (.recorded 0) is resolves).1 .bool has).resolve_right ?_⟩
  rintro ⟨op, message, failed⟩
  rw [failed] at success
  cases success

end ConfigLang
