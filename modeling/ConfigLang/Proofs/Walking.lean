import ConfigLang.Proofs.Inline
import ConfigLang.Tree.Walk
/-!
The order of callbacks. A fold goes through the nodes of a tree in post-order, hands each node the
outputs of its own children, and ends with the first callback that fails. So a malformed tree is
reported at the first node in post-order that does not fit what its children stand for. A walk that
lists its steps lists one for each node, up to its limit.
-/

set_option autoImplicit false

namespace ConfigLang

/-! ### Nodes in post-order -/

/-- A node of a tree, with the numbers that its children have in a list of nodes. -/
structure Numbered where
  tree : Tree
  children : List Nat

namespace Tree

mutual

/-- The nodes of a tree in post-order, numbered from a number on. -/
def numbered (start : Nat) : Tree → List Numbered
  | leaf token => [⟨leaf token, []⟩]
  | node rule line children =>
    numberedAll start children ++ [⟨node rule line children, roots start children⟩]

def numberedAll (start : Nat) : List Tree → List Numbered
  | [] => []
  | child :: rest => numbered start child ++ numberedAll (start + child.size) rest

/-- The numbers of the trees themselves. Each is the last of its own nodes. -/
def roots (start : Nat) : List Tree → List Nat
  | [] => []
  | child :: rest => (start + child.size - 1) :: roots (start + child.size) rest

end

/-- The nodes of a tree in post-order. -/
def postOrder (tree : Tree) : List Tree :=
  (tree.numbered 0).map Numbered.tree

mutual

theorem map_tree_numbered (start : Nat) : ∀ tree : Tree,
    (numbered start tree).map Numbered.tree = tree.postOrder
  | leaf _ => rfl
  | node rule line children => by
    rw [postOrder, numbered, numbered, List.map_append, List.map_append,
      map_tree_numberedAll start children, map_tree_numberedAll 0 children]
    rfl

theorem map_tree_numberedAll (start : Nat) : ∀ trees : List Tree,
    (numberedAll start trees).map Numbered.tree = trees.flatMap postOrder
  | [] => rfl
  | child :: rest => by
    rw [numberedAll, List.map_append, map_tree_numbered start child,
      map_tree_numberedAll _ rest, List.flatMap_cons]

end

theorem postOrder_node (rule : Rule) (line : Nat) (children : List Tree) :
    (node rule line children).postOrder =
      children.flatMap postOrder ++ [node rule line children] := by
  rw [postOrder, numbered, List.map_append, map_tree_numberedAll]
  rfl

mutual

theorem length_numbered (start : Nat) : ∀ tree : Tree, (numbered start tree).length = tree.size
  | leaf _ => rfl
  | node _ _ children => by
    rw [numbered, List.length_append, length_numberedAll start children, size, Nat.add_comm]
    rfl

theorem length_numberedAll (start : Nat) :
    ∀ trees : List Tree, (numberedAll start trees).length = sizeAll trees
  | [] => rfl
  | child :: rest => by
    rw [numberedAll, List.length_append, length_numbered start child,
      length_numberedAll _ rest, sizeAll_cons]

end

theorem length_roots (start : Nat) (trees : List Tree) :
    (roots start trees).length = trees.length := by
  induction trees generalizing start with
  | nil => rfl
  | cons tree trees ih => rw [roots, List.length_cons, List.length_cons, ih]

end Tree

/-! ### Callbacks -/

/-- A callback that was made for a node: what it was given, in which state, and what came of it. -/
structure Callback (σ ε α : Type) where
  about : Numbered
  inputs : List α
  before : σ
  outcome : Except ε α
  after : σ

variable {σ ε α β : Type}

namespace Transformer

/-- The callback for a node, with the outputs of its children. -/
def callback (transformer : Transformer σ ε α) (inputs : List α) (state : σ) :
    Tree → Except ε α × σ
  | .leaf token => (transformer.leaf token).run.run state
  | .node rule line _ => (transformer.node rule line inputs).run.run state

variable {transformer : Transformer σ ε α} {tree : Tree} {trees : List Tree} {state middle last : σ}

theorem bind_of_ok {first : ExceptT ε (StateM σ) α} {next : α → ExceptT ε (StateM σ) β} {value : α}
    (done : first.run.run state = (.ok value, middle)) :
    (first >>= next).run.run state = (next value).run.run middle := by
  change (ExceptT.bindCont next (first.run.run state).1).run (first.run.run state).2 = _
  rw [done]
  rfl

theorem bind_of_error {first : ExceptT ε (StateM σ) α} {next : α → ExceptT ε (StateM σ) β}
    {error : ε} (failed : first.run.run state = (.error error, middle)) :
    (first >>= next).run.run state = (.error error, middle) := by
  change (ExceptT.bindCont next (first.run.run state).1).run (first.run.run state).2 = _
  rw [failed]
  rfl

theorem transform_node_of_ok {rule : Rule} {line : Nat} {outputs : List α}
    (done : transformer.transformAll trees state = (.ok outputs, middle)) :
    transformer.transform (.node rule line trees) state =
      transformer.callback outputs middle (.node rule line trees) :=
  bind_of_ok done

theorem transform_node_of_error {rule : Rule} {line : Nat} {error : ε}
    (failed : transformer.transformAll trees state = (.error error, middle)) :
    transformer.transform (.node rule line trees) state = (.error error, middle) :=
  bind_of_error failed

theorem transformAll_cons_of_ok {output : α} {outputs : List α}
    (first : transformer.transform tree state = (.ok output, middle))
    (rest : transformer.transformAll trees middle = (.ok outputs, last)) :
    transformer.transformAll (tree :: trees) state = (.ok (output :: outputs), last) :=
  (bind_of_ok first).trans (bind_of_ok rest)

theorem transformAll_cons_of_error {error : ε}
    (failed : transformer.transform tree state = (.error error, middle)) :
    transformer.transformAll (tree :: trees) state = (.error error, middle) :=
  bind_of_error failed

theorem transformAll_cons_of_later {output : α} {error : ε}
    (first : transformer.transform tree state = (.ok output, middle))
    (failed : transformer.transformAll trees middle = (.error error, last)) :
    transformer.transformAll (tree :: trees) state = (.error error, last) :=
  (bind_of_ok first).trans (bind_of_error failed)

end Transformer

/-! ### Accounts of a fold -/

namespace Callback

/-- What a callback that did not fail put out. -/
def output? (callback : Callback σ ε α) : Option α :=
  callback.outcome.toOption

/-- The callback was given what those for the children put out, in their order. -/
def Answered (made : List (Callback σ ε α)) (callback : Callback σ ε α) : Prop :=
  callback.inputs.map some = callback.about.children.map fun number => made[number]?.bind output?

theorem outcome_of_output? {callback : Callback σ ε α} {output : α}
    (gave : callback.output? = some output) : callback.outcome = .ok output := by
  unfold output? at gave
  cases outcome : callback.outcome with
  | error => rw [outcome] at gave; cases gave
  | ok value => rw [outcome] at gave; cases gave; rfl

end Callback

/-- Callbacks that follow on each other from one state to another one. -/
inductive Transformer.Makes (transformer : Transformer σ ε α) :
    σ → List (Callback σ ε α) → σ → Prop
  | nil {state : σ} : Makes transformer state [] state
  | cons (callback : Callback σ ε α) {calls : List (Callback σ ε α)} {last : σ}
      (made : transformer.callback callback.inputs callback.before callback.about.tree =
        (callback.outcome, callback.after))
      (rest : Makes transformer callback.after calls last) :
      Makes transformer callback.before (callback :: calls) last

/-- Callbacks that were made behind others account for an outcome: for all of the nodes if it is a
success, and otherwise up to the one that failed in this way. -/
structure Accounts (transformer : Transformer σ ε α) (made : List (Callback σ ε α))
    (nodes : List Numbered) (state : σ) (outcome : Except ε β × σ)
    (calls : List (Callback σ ε α)) : Prop where
  makes : transformer.Makes state calls outcome.2
  answered : ∀ callback ∈ calls, callback.Answered (made ++ calls)
  done : ∀ value, outcome.1 = .ok value →
    calls.map Callback.about = nodes ∧ ∀ callback ∈ calls, callback.outcome.isOk = true
  stopped : ∀ error, outcome.1 = .error error →
    calls.map Callback.about <+: nodes ∧ ∃ earlier failing, calls = earlier ++ [failing] ∧
      failing.outcome = .error error ∧ ∀ callback ∈ earlier, callback.outcome.isOk = true

variable {transformer : Transformer σ ε α} {made calls later : List (Callback σ ε α)}
  {state middle last : σ} {nodes others : List Numbered}

/-- What has been put out stays. -/
theorem getElem?_output_append {number : Nat} {output : α}
    (found : made[number]?.bind Callback.output? = some output) (later : List (Callback σ ε α)) :
    (made ++ later)[number]?.bind Callback.output? = some output := by
  obtain ⟨callback, here, gave⟩ := Option.bind_eq_some_iff.mp found
  have inside := (List.getElem?_eq_some_iff.mp here).1
  rw [List.getElem?_append_left inside, here]
  exact gave

theorem outputs_append {outputs : List α} {numbers : List Nat}
    (found : outputs.map some = numbers.map fun number => made[number]?.bind Callback.output?)
    (later : List (Callback σ ε α)) :
    outputs.map some =
      numbers.map fun number => (made ++ later)[number]?.bind Callback.output? := by
  induction numbers generalizing outputs with
  | nil => exact found
  | cons number numbers ih =>
      cases outputs with
      | nil => cases found
      | cons output outputs =>
          obtain ⟨first, rest⟩ := List.cons.inj found
          rw [List.map_cons, List.map_cons, ih rest, getElem?_output_append first.symm later]

theorem Callback.Answered.append {callback : Callback σ ε α} (answered : callback.Answered made)
    (later : List (Callback σ ε α)) : callback.Answered (made ++ later) :=
  outputs_append answered later

theorem Transformer.Makes.append (first : transformer.Makes state calls middle)
    (second : transformer.Makes middle later last) :
    transformer.Makes state (calls ++ later) last := by
  induction first with
  | nil => exact second
  | cons callback made _ ih => exact .cons callback made (ih second)

namespace Accounts

variable {γ : Type}

/-- Where there are no nodes, nothing is called. -/
theorem nil (value : β) : Accounts transformer made [] state (.ok value, state) [] where
  makes := .nil
  answered _ member := by cases member
  done _ _ := ⟨rfl, fun _ member => by cases member⟩
  stopped _ equal := by cases equal

/-- A failure ends all that was still to come. -/
theorem failed {error : ε} (accounts : Accounts transformer made nodes state
      ((.error error, middle) : Except ε γ × σ) calls) :
    Accounts transformer made (nodes ++ others) state
      ((.error error, middle) : Except ε β × σ) calls where
  makes := accounts.makes
  answered := accounts.answered
  done _ equal := by cases equal
  stopped other equal := by
    obtain ⟨before, failing⟩ := accounts.stopped error rfl
    cases equal
    exact ⟨before.trans (List.prefix_append _ _), failing⟩

/-- Of a success it does not matter what it gave. -/
theorem instead {first : γ} (accounts : Accounts transformer made nodes state
    (.ok first, middle) calls) (second : β) :
    Accounts transformer made nodes state (.ok second, middle) calls where
  makes := accounts.makes
  answered := accounts.answered
  done _ _ := accounts.done first rfl
  stopped _ equal := by cases equal

/-- Callbacks behind those that did not fail. -/
theorem append {outcome : Except ε γ × σ} {first : β}
    (accounts : Accounts transformer made nodes state (.ok first, middle) calls)
    (behind : Accounts transformer (made ++ calls) others middle outcome later) :
    Accounts transformer made (nodes ++ others) state outcome (calls ++ later) := by
  obtain ⟨all, succeed⟩ := accounts.done first rfl
  refine ⟨accounts.makes.append behind.makes, ?_, ?_, ?_⟩
  · rw [← List.append_assoc]
    exact List.forall_mem_append.mpr ⟨fun callback member =>
      (accounts.answered callback member).append later, behind.answered⟩
  · intro value equal
    obtain ⟨others, succeeded⟩ := behind.done value equal
    rw [List.map_append, all, others]
    exact ⟨rfl, List.forall_mem_append.mpr ⟨succeed, succeeded⟩⟩
  · intro error equal
    obtain ⟨before, earlier, failing, rfl, fails, succeeded⟩ := behind.stopped error equal
    rw [List.map_append, all]
    exact ⟨(List.prefix_append_right_inj nodes).mpr before, calls ++ earlier, failing,
      (List.append_assoc ..).symm, fails, List.forall_mem_append.mpr ⟨succeed, succeeded⟩⟩

/-- A single callback. -/
theorem single {about : Numbered} {inputs : List α} {outcome : Except ε α}
    (makes : transformer.callback inputs state about.tree = (outcome, middle))
    (answered : inputs.map some =
      about.children.map fun number => made[number]?.bind Callback.output?) :
    Accounts transformer made [about] state (outcome, middle)
      [⟨about, inputs, state, outcome, middle⟩] where
  makes := .cons ⟨about, inputs, state, outcome, middle⟩ makes .nil
  answered := List.forall_mem_singleton.mpr (outputs_append answered _)
  done value equal := ⟨rfl, List.forall_mem_singleton.mpr (by cases equal; rfl)⟩
  stopped error equal := ⟨List.prefix_rfl, [], _, rfl, equal, by simp⟩

/-- Where no callback failed, there is one for each of the nodes. -/
theorem length_eq {first : β}
    (accounts : Accounts transformer made nodes state (.ok first, middle) calls) :
    calls.length = nodes.length := by
  rw [← (accounts.done first rfl).1, List.length_map]

end Accounts

theorem getElem?_output_concat (made : List (Callback σ ε α)) (callback : Callback σ ε α) :
    (made ++ [callback])[made.length]?.bind Callback.output? = callback.output? := by
  rw [List.getElem?_concat_length]
  rfl

mutual

/-- Whatever was made before, the callbacks for a tree account for its outcome. The last of them is
the one for the tree itself. -/
theorem exists_accounts (transformer : Transformer σ ε α) :
    ∀ (tree : Tree) (made : List (Callback σ ε α)) (state : σ), ∃ calls,
      Accounts transformer made (tree.numbered made.length) state
        (transformer.transform tree state) calls ∧
      ∀ value, (transformer.transform tree state).1 = .ok value →
        (made ++ calls)[made.length + tree.size - 1]?.bind Callback.output? = some value
  | .leaf token, made, state => by
    cases run : transformer.transform (.leaf token) state with
    | mk outcome last =>
        refine ⟨[⟨⟨.leaf token, []⟩, [], state, outcome, last⟩], .single run rfl, ?_⟩
        intro value equal
        refine (getElem?_output_concat made _).trans ?_
        cases equal
        rfl
  | .node rule line children, made, state => by
    obtain ⟨calls, accounts, values⟩ := exists_accountsAll transformer children made state
    cases below : transformer.transformAll children state with
    | mk result middle =>
        rw [below] at accounts values
        cases result with
        | error error =>
            rw [Transformer.transform_node_of_error below]
            exact ⟨calls, accounts.failed, fun _ equal => by cases equal⟩
        | ok outputs =>
            rw [Transformer.transform_node_of_ok below]
            cases run : transformer.callback outputs middle (.node rule line children) with
            | mk outcome last =>
                refine ⟨_, accounts.append (.single run (values outputs rfl)), ?_⟩
                intro value equal
                have place : made.length + (Tree.node rule line children).size - 1 =
                    (made ++ calls).length := by
                  rw [List.length_append, accounts.length_eq, Tree.length_numberedAll, Tree.size]
                  omega
                cases equal
                rw [place, ← List.append_assoc, getElem?_output_concat]
                rfl

theorem exists_accountsAll (transformer : Transformer σ ε α) :
    ∀ (trees : List Tree) (made : List (Callback σ ε α)) (state : σ), ∃ calls,
      Accounts transformer made (Tree.numberedAll made.length trees) state
        (transformer.transformAll trees state) calls ∧
      ∀ values, (transformer.transformAll trees state).1 = .ok values → values.map some =
        (Tree.roots made.length trees).map fun number =>
          (made ++ calls)[number]?.bind Callback.output?
  | [], made, state => by
    refine ⟨[], .nil [], ?_⟩
    intro values equal
    cases equal
    rfl
  | tree :: trees, made, state => by
    obtain ⟨calls, accounts, output⟩ := exists_accounts transformer tree made state
    cases first : transformer.transform tree state with
    | mk result middle =>
        rw [first] at accounts output
        cases result with
        | error error =>
            rw [Transformer.transformAll_cons_of_error first]
            exact ⟨calls, accounts.failed, fun _ equal => by cases equal⟩
        | ok value =>
            have next : (made ++ calls).length = made.length + tree.size := by
              rw [List.length_append, accounts.length_eq, Tree.length_numbered]
            obtain ⟨later, behind, values⟩ :=
              exists_accountsAll transformer trees (made ++ calls) middle
            rw [next] at behind values
            cases rest : transformer.transformAll trees middle with
            | mk result last =>
                rw [rest] at behind values
                refine ⟨calls ++ later, ?_⟩
                cases result with
                | error error =>
                    rw [Transformer.transformAll_cons_of_later first rest]
                    exact ⟨accounts.append behind, fun _ equal => by cases equal⟩
                | ok outputs =>
                    rw [Transformer.transformAll_cons_of_ok first rest]
                    refine ⟨(accounts.append behind).instead _, ?_⟩
                    intro _ equal
                    cases equal
                    rw [Tree.roots, List.map_cons, List.map_cons, ← List.append_assoc,
                      values outputs rfl, getElem?_output_append (output value rfl) later]

end

/-- The callbacks of a whole fold. -/
structure Transformer.Folds (transformer : Transformer σ ε α) (tree : Tree) (state : σ)
    (calls : List (Callback σ ε α)) : Prop where
  makes : transformer.Makes state calls (transformer.transform tree state).2
  answered : ∀ callback ∈ calls, callback.Answered calls
  inOrder : calls.map Callback.about <+: tree.numbered 0
  outcome : calls.getLast?.map Callback.outcome = some (transformer.transform tree state).1
  earlier : ∀ callback ∈ calls.dropLast, callback.outcome.isOk = true
  all : (transformer.transform tree state).1.isOk = true →
    calls.map Callback.about = tree.numbered 0

theorem Transformer.exists_folds (transformer : Transformer σ ε α) (tree : Tree) (state : σ) :
    ∃ calls, transformer.Folds tree state calls := by
  obtain ⟨calls, accounts, output⟩ := exists_accounts transformer tree [] state
  refine ⟨calls, ?_⟩
  cases run : transformer.transform tree state with
  | mk result last =>
      rw [run] at accounts output
      cases result with
      | error error =>
          obtain ⟨before, earlier, failing, rfl, fails, succeed⟩ := accounts.stopped error rfl
          exact
            { makes := by rw [run]; exact accounts.makes
              answered := accounts.answered
              inOrder := before
              outcome := by rw [run, List.getLast?_concat, Option.map_some, fails]
              earlier := by rw [List.dropLast_concat]; exact succeed
              all := fun success => by rw [run] at success; cases success }
      | ok value =>
          obtain ⟨all, succeed⟩ := accounts.done value rfl
          have place : ([] : List (Callback σ ε α)).length + tree.size - 1 = calls.length - 1 := by
            rw [accounts.length_eq, Tree.length_numbered, List.length_nil, Nat.zero_add]
          obtain ⟨callback, here, gave⟩ := Option.bind_eq_some_iff.mp (output value rfl)
          rw [place, List.nil_append, ← List.getLast?_eq_getElem?] at here
          exact
            { makes := by rw [run]; exact accounts.makes
              answered := accounts.answered
              inOrder := by rw [all]; exact List.prefix_rfl
              outcome := by rw [run, here, Option.map_some, Callback.outcome_of_output? gave]
              earlier := fun callback member => succeed callback (List.dropLast_subset _ member)
              all := fun _ => all }

/-- The last callback gives the outcome, and no other one fails. -/
theorem Transformer.Folds.exists_final {tree : Tree} (folds : transformer.Folds tree state calls) :
    ∃ earlier final, calls = earlier ++ [final] ∧
      final.outcome = (transformer.transform tree state).1 ∧
      ∀ callback ∈ earlier, callback.outcome.isOk = true := by
  have succeed := folds.earlier
  have ended := folds.outcome
  rcases List.eq_nil_or_concat calls with rfl | ⟨earlier, final, parts⟩
  · cases ended
  · rw [List.concat_eq_append] at parts
    rw [parts, List.dropLast_concat] at succeed
    rw [parts, List.getLast?_concat, Option.map_some, Option.some.injEq] at ended
    exact ⟨earlier, final, parts, ended, succeed⟩

/-! ### Listed walks -/

namespace Visit

/-- The step for a node that was given so many outputs. -/
def counted (outputs : Nat) : Tree → Visit
  | .leaf token => .leaf token
  | .node rule line _ => .node rule line outputs

/-- The step for a node of a tree. -/
def of : Tree → Visit
  | .leaf token => .leaf token
  | .node rule line children => .node rule line children.length

/-- The step that a callback lists. -/
def listed (callback : Callback (List Visit) Unit Unit) : Visit :=
  counted callback.inputs.length callback.about.tree

theorem recorder_callback (limit : Option Nat) (inputs : List Unit) (visits : List Visit)
    (tree : Tree) : (recorder limit).callback inputs visits tree =
      (if limit = some (visits.length + 1) then .error () else .ok (),
        counted inputs.length tree :: visits) := by
  have recorded (visit : Visit) : (record limit visit).run.run visits =
      (if limit = some (visits.length + 1) then .error () else .ok (), visit :: visits) := by
    change (if _ then _ else _) = _
    split
    · rfl
    · rfl
  cases tree with
  | leaf token => exact recorded _
  | node rule line children => exact recorded _

variable {limit : Option Nat} {before last : List Visit}
  {calls : List (Callback (List Visit) Unit Unit)}

theorem visits_of_makes (makes : (recorder limit).Makes before calls last) :
    last = (calls.map listed).reverse ++ before := by
  induction makes with
  | nil => rfl
  | cons callback called _ ih =>
      rw [recorder_callback] at called
      rw [ih, ← (Prod.mk.inj called).2, List.map_cons, List.reverse_cons, List.append_assoc]
      rfl

/-- Callbacks that do not fail are before the limit or behind it. -/
theorem limit_of_succeed (makes : (recorder limit).Makes before calls last)
    (succeed : ∀ callback ∈ calls, callback.outcome.isOk = true) (number : Nat)
    (limited : limit = some number) :
    number ≤ before.length ∨ before.length + calls.length < number := by
  induction makes with
  | nil => exact Nat.lt_or_ge _ _ |>.symm
  | @cons callback calls last called _ ih =>
      obtain ⟨first, others⟩ := List.forall_mem_cons.mp succeed
      rw [recorder_callback] at called
      obtain ⟨outcome, after⟩ := Prod.mk.inj called
      have further := ih others
      rw [← after, List.length_cons] at further
      rw [List.length_cons]
      by_cases reached : limit = some (callback.before.length + 1)
      · rw [if_pos reached] at outcome
        rw [← outcome] at first
        cases first
      · have differs : number ≠ callback.before.length + 1 := fun same =>
          reached (limited.trans (congrArg some same))
        omega

theorem limit_of_failing {earlier : List (Callback (List Visit) Unit Unit)}
    {failing : Callback (List Visit) Unit Unit}
    (makes : (recorder limit).Makes before (earlier ++ [failing]) last)
    (failed : failing.outcome.isOk = false) :
    limit = some (before.length + earlier.length + 1) := by
  induction earlier generalizing before with
  | nil =>
      obtain _ | ⟨_, called, _⟩ := makes
      rw [recorder_callback] at called
      by_cases reached : limit = some (failing.before.length + 1)
      · exact reached
      · rw [if_neg reached] at called
        rw [← (Prod.mk.inj called).1] at failed
        cases failed
  | cons callback earlier ih =>
      obtain _ | ⟨_, called, rest⟩ := makes
      rw [recorder_callback] at called
      have further := ih rest
      rw [← (Prod.mk.inj called).2, List.length_cons] at further
      rw [further, List.length_cons]
      congr 1
      omega

mutual

/-- A numbered node has a number for each child. -/
theorem counted_of_numbered (start : Nat) : ∀ tree : Tree, ∀ inner ∈ tree.numbered start,
    counted inner.children.length inner.tree = of inner.tree
  | .leaf _, _, member => by
    cases List.mem_singleton.mp member
    rfl
  | .node rule line children, inner, member => by
    rcases List.mem_append.mp member with below | self
    · exact counted_of_numberedAll start children inner below
    · cases List.mem_singleton.mp self
      exact congrArg (Visit.node rule line) (Tree.length_roots start children)

theorem counted_of_numberedAll (start : Nat) : ∀ trees : List Tree,
    ∀ inner ∈ Tree.numberedAll start trees, counted inner.children.length inner.tree = of inner.tree
  | [], _, member => by cases member
  | tree :: trees, inner, member => by
    rcases List.mem_append.mp member with first | later
    · exact counted_of_numbered start tree inner first
    · exact counted_of_numberedAll (start + tree.size) trees inner later

end

end Visit

namespace Tree

/-- The steps of a whole walk. -/
def steps (tree : Tree) : List Visit :=
  tree.postOrder.map Visit.of

theorem length_steps (tree : Tree) : tree.steps.length = tree.size := by
  rw [steps, postOrder, List.length_map, List.length_map, length_numbered]

/-- The steps that were made are those for the nodes of the callbacks. -/
theorem visits_of_folds {limit : Option Nat} {tree : Tree}
    {calls : List (Callback (List Visit) Unit Unit)}
    (folds : (Visit.recorder limit).Folds tree [] calls) : (tree.walk limit).visits =
      (calls.map Callback.about).map fun numbered => Visit.of numbered.tree := by
  change List.reverse _ = _
  rw [Visit.visits_of_makes folds.makes, List.append_nil, List.reverse_reverse, List.map_map]
  refine List.map_congr_left fun callback member => ?_
  have count := congrArg List.length (folds.answered callback member)
  rw [List.length_map, List.length_map] at count
  have among := folds.inOrder.subset (List.mem_map_of_mem member)
  exact (congrArg (Visit.counted · _) count).trans (Visit.counted_of_numbered 0 tree _ among)

/-- A walk makes all of its steps and none of them is the last one allowed, or it ends with that
one. -/
theorem walk_cases (limit : Option Nat) (tree : Tree) :
    (tree.walk limit = ⟨true, tree.steps⟩ ∧
        ∀ number, limit = some number → number = 0 ∨ tree.size < number) ∨
      ∃ number, limit = some (number + 1) ∧ number < tree.size ∧
        tree.walk limit = ⟨false, tree.steps.take (number + 1)⟩ := by
  obtain ⟨calls, folds⟩ := (Visit.recorder limit).exists_folds tree []
  have visited := visits_of_folds folds
  have whole : tree.steps = (tree.numbered 0).map fun numbered => Visit.of numbered.tree :=
    List.map_map
  have ends : tree.walk limit =
      ⟨((Visit.recorder limit).transform tree []).1.isOk, (tree.walk limit).visits⟩ := rfl
  obtain ⟨earlier, final, rfl, ended, succeed⟩ := folds.exists_final
  rw [visited] at ends
  cases complete : ((Visit.recorder limit).transform tree []).1.isOk with
  | true =>
      have all := folds.all complete
      have size := congrArg List.length all
      rw [List.length_map, length_numbered] at size
      left
      rw [complete, all, ← whole] at ends
      refine ⟨ends, fun number limited => ?_⟩
      have free := Visit.limit_of_succeed folds.makes (List.forall_mem_append.mpr
        ⟨succeed, List.forall_mem_singleton.mpr (ended ▸ complete)⟩) number limited
      rw [size, List.length_nil] at free
      omega
  | false =>
      have reached := Visit.limit_of_failing folds.makes (ended ▸ complete)
      have cut := folds.inOrder.map fun numbered => Visit.of numbered.tree
      have size := folds.inOrder.length_le
      rw [length_numbered, List.length_map, List.length_append] at size
      right
      refine ⟨earlier.length, ?_, size, ?_⟩
      · rw [reached, List.length_nil, Nat.zero_add]
      · rw [ends, complete, whole, List.prefix_iff_eq_take.mp cut, List.length_map,
          List.length_map, List.length_append]
        rfl

/-- A walk makes a step for each node in post-order, with the number of its children. -/
theorem walk_none (tree : Tree) : tree.walk none = ⟨true, tree.steps⟩ := by
  rcases walk_cases none tree with ⟨whole, _⟩ | ⟨_, limited, _⟩
  · exact whole
  · cases limited

/-- With a limit, a walk is cut off behind the step of that number, if there is one. -/
theorem walk_some (number : Nat) (tree : Tree) : tree.walk (some (number + 1)) =
    ⟨decide (tree.size ≤ number), tree.steps.take (number + 1)⟩ := by
  rcases walk_cases (some (number + 1)) tree with ⟨whole, free⟩ | ⟨last, limited, inside, cut⟩
  · have beyond := (free _ rfl).resolve_left (Nat.succ_ne_zero number)
    rw [whole, List.take_of_length_le (by rw [length_steps]; omega), decide_eq_true (by omega)]
  · cases limited
    rw [cut, decide_eq_false (by omega)]

end Tree

/-! ### Malformed trees -/

namespace Part

/-- What the nodes of a tree stand for, by callbacks without a state. -/
def lowering : Transformer Unit Malformed Part where
  leaf token := pure (.token token)
  node rule line parts := ExceptT.mk (pure (ofNode rule line parts))

/-- A node that does not fit the parts that its children stand for. -/
inductive Rejects : Tree → Malformed → Prop
  | node {rule : Rule} {line : Nat} {children : List Tree} {parts : List Part} {flaw : Flaw}
      (below : ofTrees children = .ok parts) (flawed : ofRule rule parts = .error flaw) :
      Rejects (.node rule line children) ⟨rule, line, flaw⟩

theorem Rejects.error {tree : Tree} {malformed : Malformed} (rejects : Rejects tree malformed) :
    ofTree tree = .error malformed := by
  cases rejects with
  | node below flawed => exact ofTree_node_error.mpr (.inr ⟨_, _, below, flawed, rfl⟩)

mutual

theorem transform_lowering : ∀ tree : Tree, lowering.transform tree () = (ofTree tree, ())
  | .leaf _ => rfl
  | .node rule line children => by
    have below := transformAll_lowering children
    cases read : ofTrees children with
    | error malformed =>
        rw [read] at below
        rw [Transformer.transform_node_of_error below, ofTree_node_error.mpr (.inl read)]
    | ok parts =>
        rw [read] at below
        rw [Transformer.transform_node_of_ok below]
        change _ = (ofTrees children >>= ofNode rule line, ())
        rw [read]
        rfl

theorem transformAll_lowering : ∀ trees : List Tree,
    lowering.transformAll trees () = (ofTrees trees, ())
  | [] => rfl
  | tree :: trees => by
    have first := transform_lowering tree
    have rest := transformAll_lowering trees
    cases read : ofTree tree with
    | error malformed =>
        rw [read] at first
        rw [Transformer.transformAll_cons_of_error first, ofTrees_cons_error.mpr (.inl read)]
    | ok part =>
        rw [read] at first
        cases later : ofTrees trees with
        | error malformed =>
            rw [later] at rest
            rw [Transformer.transformAll_cons_of_later first rest,
              ofTrees_cons_error.mpr (.inr ⟨part, read, later⟩)]
        | ok parts =>
            rw [later] at rest
            rw [Transformer.transformAll_cons_of_ok first rest, ofTrees_cons read later]

end

mutual

/-- Every node of a tree that stands for something stands for something. -/
theorem means_of_mem_postOrder : ∀ (tree : Tree) (part : Part), Means tree part →
    ∀ inner ∈ tree.postOrder, ∃ part, Means inner part
  | .leaf _, part, means, inner, member => by
    cases List.mem_singleton.mp member
    exact ⟨part, means⟩
  | .node rule line children, part, means, inner, member => by
    rw [Tree.postOrder_node] at member
    rcases List.mem_append.mp member with below | self
    · obtain ⟨_, ⟨parts, read, _⟩, _⟩ := means_node_ok means
      exact means_of_mem_postOrderAll children parts read inner below
    · cases List.mem_singleton.mp self
      exact ⟨part, means⟩

theorem means_of_mem_postOrderAll : ∀ (trees : List Tree) (parts : List Part),
    ofTrees trees = .ok parts → ∀ inner ∈ trees.flatMap Tree.postOrder, ∃ part, Means inner part
  | [], _, _, _, member => by cases member
  | tree :: trees, _, read, inner, member => by
    obtain ⟨part, parts, rfl, means, rest⟩ := ofTrees_cons_ok read
    rw [List.flatMap_cons] at member
    rcases List.mem_append.mp member with first | later
    · exact means_of_mem_postOrder tree part means inner first
    · exact means_of_mem_postOrderAll trees parts rest inner later

end

/-- The first of the nodes that is rejected, and how. -/
def RejectsFirst (nodes : List Tree) (malformed : Malformed) : Prop :=
  ∃ before node after, nodes = before ++ node :: after ∧
    (∀ inner ∈ before, ∃ part, Means inner part) ∧ Rejects node malformed

theorem RejectsFirst.append {nodes : List Tree} {malformed : Malformed}
    (rejects : RejectsFirst nodes malformed) (others : List Tree) :
    RejectsFirst (nodes ++ others) malformed := by
  obtain ⟨before, node, after, rfl, means, rejects⟩ := rejects
  exact ⟨before, node, after ++ others, by simp, means, rejects⟩

theorem RejectsFirst.behind {nodes others : List Tree} {malformed : Malformed}
    (means : ∀ inner ∈ nodes, ∃ part, Means inner part)
    (rejects : RejectsFirst others malformed) : RejectsFirst (nodes ++ others) malformed := by
  obtain ⟨before, node, after, rfl, means', rejects⟩ := rejects
  exact ⟨nodes ++ before, node, after, by simp, List.forall_mem_append.mpr ⟨means, means'⟩, rejects⟩

mutual

theorem rejectsFirst_of_error : ∀ (tree : Tree) (malformed : Malformed),
    ofTree tree = .error malformed → RejectsFirst tree.postOrder malformed
  | .leaf _, _, failed => by cases failed
  | .node rule line children, malformed, failed => by
    rw [Tree.postOrder_node]
    rcases ofTree_node_error.mp failed with below | ⟨parts, flaw, inner, flawed, rfl⟩
    · exact (rejectsFirst_of_errorAll children malformed below).append _
    · refine .behind (means_of_mem_postOrderAll children parts inner) ?_
      exact ⟨[], _, [], rfl, by simp, .node inner flawed⟩

theorem rejectsFirst_of_errorAll : ∀ (trees : List Tree) (malformed : Malformed),
    ofTrees trees = .error malformed →
      RejectsFirst (trees.flatMap Tree.postOrder) malformed
  | [], _, failed => by cases failed
  | tree :: trees, malformed, failed => by
    rw [List.flatMap_cons]
    rcases ofTrees_cons_error.mp failed with here | ⟨part, means, later⟩
    · exact (rejectsFirst_of_error tree malformed here).append _
    · exact .behind (means_of_mem_postOrder tree part means)
        (rejectsFirst_of_errorAll trees malformed later)

end

/-- There is only one first node. -/
theorem RejectsFirst.unique {nodes : List Tree} {malformed other : Malformed}
    (first : RejectsFirst nodes malformed) (second : RejectsFirst nodes other) :
    malformed = other := by
  obtain ⟨before, node, after, rfl, means, rejects⟩ := first
  obtain ⟨before', node', after', same, means', rejects'⟩ := second
  -- What is rejected stands for nothing, so that neither node is before the other.
  have never {tree : Tree} {malformed : Malformed} (rejects : Rejects tree malformed) :
      ¬ ∃ part, Means tree part := by
    rintro ⟨part, means⟩
    cases rejects.error.symm.trans means
  have at_same : node = node' := by
    rcases List.append_eq_append_iff.mp same with ⟨between, front, rest⟩ | ⟨between, front, rest⟩
    · cases between with
      | nil => exact (List.cons.inj rest).1
      | cons inner between =>
          have member : node ∈ before' := by
            rw [front, (List.cons.inj rest).1]
            simp
          exact absurd (means' node member) (never rejects)
    · cases between with
      | nil => exact (List.cons.inj rest).1.symm
      | cons inner between =>
          have member : node' ∈ before := by
            rw [front, (List.cons.inj rest).1]
            simp
          exact absurd (means node' member) (never rejects')
  subst at_same
  exact Except.error.inj (rejects.error.symm.trans rejects'.error)

theorem ofTree_eq_error_iff {tree : Tree} {malformed : Malformed} :
    ofTree tree = .error malformed ↔ RejectsFirst tree.postOrder malformed := by
  refine ⟨rejectsFirst_of_error tree malformed, fun rejects => ?_⟩
  cases read : ofTree tree with
  | error other => rw [rejects.unique (rejectsFirst_of_error tree other read)]
  | ok part =>
      obtain ⟨before, node, after, whole, _, rejects⟩ := rejects
      have member : node ∈ tree.postOrder := by rw [whole]; simp
      obtain ⟨_, means⟩ := means_of_mem_postOrder tree part read node member
      cases rejects.error.symm.trans means

/-- Of two nodes that do not fit, the one that comes to its end first is reported. -/
example :
    let name : Tree := .node .identifier 4 [.leaf ⟨.dot, .start⟩]
    ofTree (.node .body 1 [.node .attr 2 [.node .int 3 [], name], name]) =
      .error ⟨.int, 3, .childCount 1 0⟩ := rfl

end Part

/-- A fold makes its callbacks in post-order up to the first that fails. Each goes on from the state
that the one before it left, is given the outputs of the children of its node, and the last one
gives the outcome. Lowering is such a fold, so that it fails if and only if a node does not fit what
its children stand for, and with the rule and the line of the first one. -/
theorem Transformer.transform_in_postOrder :
    (∀ (σ ε α : Type) (transformer : Transformer σ ε α) (tree : Tree) (state : σ),
      ∃ calls, transformer.Folds tree state calls) ∧
    (∀ tree : Tree, Part.lowering.transform tree () = (Part.ofTree tree, ())) ∧
    ∀ (tree : Tree) (malformed : Malformed), Part.ofTree tree = .error malformed ↔
      Part.RejectsFirst tree.postOrder malformed :=
  ⟨fun _ _ _ transformer tree state => transformer.exists_folds tree state,
    Part.transform_lowering, fun _ _ => Part.ofTree_eq_error_iff⟩

end ConfigLang
