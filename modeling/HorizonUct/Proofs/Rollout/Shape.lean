import HorizonUct.Proofs.Fork
import HorizonUct.Proofs.Rollout.Route
import HorizonUct.Proofs.Rollout.Unrolling

/-!
# The shape of a rollout

The path of a rollout leads from node to child, so it goes from states to
actions and back in turn. It takes an action at each action that it passes,
and it ends at the last action that was allowed or at a deadlock before. So
the number of actions and the kind of the first node tell how long it is.
-/

namespace HorizonUct

namespace Tree

variable {S α : Type}

/-- Whether a node stands for an action. -/
def isAction (tree : Tree S α) (id : Nat) : Bool :=
  tree.nodes[id]?.any fun node => !node.role.isDecision

/-- A node is a child of another one and of the other kind. -/
def Below (tree : Tree S α) (up down : Nat) : Prop :=
  ∃ parent child, tree.nodes[up]? = some parent ∧ tree.nodes[down]? = some child ∧
    down ∈ parent.children ∧ child.role.isDecision = !parent.role.isDecision

variable {tree : Tree S α} {id : Nat} {node : Node S α}

/-- A node that is there stands for an action unless it stands for a state. -/
theorem isAction_eq (found : tree.nodes[id]? = some node) :
    tree.isAction id = !node.role.isDecision := by
  rw [isAction, found, Option.any_some]

/-- As a tree grows, nodes stand for what they stood for. -/
theorem Extends.isAction {new : Tree S α} (h : tree.Extends new)
    (found : tree.nodes[id]? = some node) : new.isAction id = tree.isAction id := by
  obtain ⟨after, there, kept⟩ := h found
  rw [isAction_eq there, isAction_eq found, kept.role]

/-- In a layered tree a child is of the other kind than its parent. -/
theorem Layered.below (layered : tree.Layered) (found : tree.nodes[id]? = some node) {child : Nat}
    (named : child ∈ node.children) : tree.Below id child := by
  obtain ⟨entry, there, parent, -⟩ := layered.toLinked.child found named
  exact ⟨node, entry, found, there, named, layered.flips there parent found⟩

/-- In a linked table a child comes later than its parent. -/
theorem Below.lt {up down : Nat} (below : tree.Below up down) (linked : tree.Linked) :
    up < down := by
  obtain ⟨parent, -, found, -, named, -⟩ := below
  obtain ⟨-, -, -, later⟩ := linked.child found named
  exact later

/-- Of a parent and its child exactly one stands for an action. -/
theorem Below.isAction {up down : Nat} (below : tree.Below up down) :
    tree.isAction down = !tree.isAction up := by
  obtain ⟨parent, child, found, there, -, flips⟩ := below
  rw [isAction_eq there, isAction_eq found, flips]

variable [Scalar α] {rules : Rules S α} {left rest : Nat} {way : List (Nat × α)}

/-- A route with an action left to take starts at its first node. -/
theorem Route.starts (route : Route rules tree left id way rest) (some : 0 < left) :
    ∃ earned later, way = (id, earned) :: later := by
  cases route with
  | horizon => omega
  | stop | pick | act => exact ⟨_, _, rfl⟩

/-- One more node in front of a route is above its first one, if there is any. -/
theorem Route.isChain_cons {up : Nat} (route : Route rules tree left id way rest)
    (below : tree.Below up id) (chain : (way.map Prod.fst).IsChain tree.Below) :
    (up :: way.map Prod.fst).IsChain tree.Below := by
  rcases Nat.eq_zero_or_pos left with rfl | some
  · cases route
    exact .singleton up
  · obtain ⟨earned, later, rfl⟩ := route.starts some
    exact .cons_cons below chain

/-- A route leads from node to child. -/
theorem Route.isChain (route : Route rules tree left id way rest) (layered : tree.Layered) :
    (way.map Prod.fst).IsChain tree.Below := by
  induction route with
  | horizon => exact .nil
  | stop => exact .singleton _
  | pick found _ _ named onward ih | act found _ _ _ _ named onward ih =>
    have below := layered.below found named
    exact onward.isChain_cons below ih

/-- A route takes an action at each action that it passes. -/
theorem Route.countP_isAction (route : Route rules tree left id way rest) :
    (way.map Prod.fst).countP tree.isAction + rest = left := by
  induction route with
  | horizon => rfl
  | stop found _ role bare =>
    have here := isAction_eq found
    simp [here, role]
  | pick found _ role _ _ ih =>
    have here := isAction_eq found
    rw [role] at here
    rw [List.map_cons, List.countP_cons_of_neg (by simp [here]), ih]
  | act found _ role _ _ _ _ ih =>
    have here := isAction_eq found
    rw [role] at here
    rw [List.map_cons, List.countP_cons_of_pos here]
    omega

/-- A route that has used up the horizon ends at an action, and any other at
an expanded state without children. -/
theorem Route.last (route : Route rules tree left id way rest) (some : 0 < left) :
    ∃ last node, (way.map Prod.fst).getLast? = .some last ∧ tree.nodes[last]? = .some node ∧
      node.expanded = true ∧ (rest = 0 → node.role.isDecision = false) ∧
        (0 < rest → node.role.isDecision = true ∧ node.children = []) := by
  induction route with
  | horizon => omega
  | @stop left id node found expanded role bare =>
    exact ⟨id, node, rfl, found, expanded, fun none => by omega, fun _ => ⟨role, bare⟩⟩
  | @pick left id child rest node way found expanded role named onward ih =>
    obtain ⟨earned, later, rfl⟩ := onward.starts (Nat.zero_lt_succ left)
    obtain ⟨last, end_, ends, there⟩ := ih (Nat.zero_lt_succ left)
    exact ⟨last, end_, by simpa using ends, there⟩
  | @act left id child rest index label reward node way found expanded role earned fair named
      onward ih =>
    rcases Nat.eq_zero_or_pos left with rfl | some
    · cases onward
      have chance : node.role.isDecision = false := by rw [role]; rfl
      exact ⟨id, node, rfl, found, expanded, fun _ => chance, fun more => by omega⟩
    · obtain ⟨earned, later, rfl⟩ := onward.starts some
      obtain ⟨last, end_, ends, there⟩ := ih some
      exact ⟨last, end_, by simpa using ends, there⟩

/-- A route from a state has two nodes for each action, and one more if it ends
before the horizon; a route from an action has one less. -/
theorem Route.length_eq (route : Route rules tree left id way rest) (layered : tree.Layered)
    (some : 0 < left) : way.length + (tree.isAction id).toNat + 2 * rest =
      2 * left + if rest = 0 then 0 else 1 := by
  induction route with
  | horizon => omega
  | @stop left id node found _ role bare =>
    have here := isAction_eq found
    rw [role] at here
    simp only [here, List.length_singleton, Bool.not_true, Bool.toNat_false, Nat.succ_ne_zero,
      if_false]
    omega
  | @pick left id child rest node way found _ role named onward ih =>
    have here := isAction_eq found
    have there := (layered.below found named).isAction
    have onward := ih (Nat.zero_lt_succ left)
    simp only [here, role, Bool.not_true, Bool.not_false, Bool.toNat_false,
      List.length_cons] at there onward ⊢
    rw [there] at onward
    simp only [Bool.toNat_true] at onward
    omega
  | @act left id child rest index label reward node way found _ role _ _ named onward ih =>
    have here := isAction_eq found
    have there := (layered.below found named).isAction
    simp only [here, role, Role.isDecision, Bool.not_true, Bool.not_false, Bool.toNat_true,
      List.length_cons] at there ⊢
    rcases Nat.eq_zero_or_pos left with rfl | some
    · cases onward
      rfl
    · have onward := ih some
      rw [there] at onward
      simp only [Bool.toNat_false] at onward
      omega

/-- A rollout can be retraced in a tree: it has taken a route through it, and
has what was earned from each node on. -/
def Retraces (rules : Rules S α) (horizon start : Nat) (tree : Tree S α) (rollout : Rollout α) :
    Prop :=
  ∃ way rest, tree.Route rules horizon start way rest ∧ rollout.path = returnsOf way ∧
    rollout.total = totalOf way ∧ rollout.steps + rest = horizon

/-- As a tree grows, rollouts can still be retraced. -/
theorem Retraces.extends {new : Tree S α} {horizon start : Nat} {rollout : Rollout α}
    (retraces : tree.Retraces rules horizon start rollout) (h : tree.Extends new) :
    new.Retraces rules horizon start rollout := by
  obtain ⟨way, rest, route, told⟩ := retraces
  exact ⟨way, rest, route.extends h, told⟩

/-- A rollout has taken as many actions as its path passes. -/
theorem Retraces.steps_eq {horizon start : Nat} {rollout : Rollout α}
    (retraces : tree.Retraces rules horizon start rollout) :
    rollout.steps = (rollout.path.map Prod.fst).countP tree.isAction := by
  obtain ⟨way, rest, route, path, -, steps⟩ := retraces
  have counted := route.countP_isAction
  rw [path, fst_returnsOf]
  omega

end Tree

/-- A rollout that is made can be retraced in the tree it leaves. -/
theorem Progress.Rolls.retraces {σ υ S α : Type} [Navigator σ S α] [Scalar α] [DrawSource υ α]
    {progress last : Progress σ υ S α} {rules : Rules S α} {start horizon : Nat} {bias : α}
    {rollout : Rollout α} (rolls : Rolls rules progress start horizon bias (.ok rollout) last)
    (layered : progress.tree.Layered) : last.tree.Retraces rules horizon start rollout := by
  cases rolls with
  | idle nought =>
    rw [nought]
    exact ⟨[], 0, .horizon start, rfl, rfl, rfl⟩
  | @made _ last way rest _ approach descent =>
    rw [← approach.same] at layered
    have learns := steps_backUp (Tree.Told fun (_ : σ) _ => True) last.tree way.reverse
    have route := (descent.route layered).extends learns.extends
    have counted := route.countP_isAction
    obtain ⟨total, path⟩ := Tree.returns_backUp last.tree way
    refine ⟨way, rest, route, path, total, ?_⟩
    dsimp only
    omega

/-- What the path of a rollout over a table looks like in the tree that the
rollout leaves. -/
structure Rollout.Shaped {α : Type} (mdp : Mdp α) (tree : Tree Nat α) (start horizon : Nat)
    (rollout : Rollout α) : Prop where
  /-- It starts at the start. -/
  starts : (rollout.path.map Prod.fst).head? = some start
  /-- Each node is a child of the one before it and of the other kind. -/
  onward : (rollout.path.map Prod.fst).IsChain tree.Below
  /-- Later nodes have greater indices. -/
  ascends : (rollout.path.map Prod.fst).Pairwise (· < ·)
  /-- An action was taken at each node for an action, and nowhere else. -/
  steps_eq : rollout.steps = (rollout.path.map Prod.fst).countP tree.isAction
  /-- No more actions were taken than the horizon allows. -/
  steps_le : rollout.steps ≤ horizon
  /-- A rollout that has used up the horizon ends at an action. -/
  ends_at_action : rollout.steps = horizon → ∃ last node,
    (rollout.path.map Prod.fst).getLast? = some last ∧ tree.nodes[last]? = some node ∧
      node.role.isDecision = false
  /-- Any other ends at a state without choices. -/
  ends_at_deadlock : rollout.steps < horizon → ∃ last node state,
    (rollout.path.map Prod.fst).getLast? = some last ∧ tree.nodes[last]? = some node ∧
      node.role = .decision state ∧ mdp.states[state]? = some []
  /-- From a state there are two nodes for each action, and a last one at a deadlock. -/
  length_of_state : tree.isAction start = false → rollout.path.length =
    if rollout.steps = horizon then 2 * rollout.steps else 2 * rollout.steps + 1
  /-- From an action there is one node less. -/
  length_of_action : tree.isAction start = true → rollout.path.length + 1 =
    if rollout.steps = horizon then 2 * rollout.steps else 2 * rollout.steps + 1

/-- What can be retraced in a tree that unrolls a table has the shape of a rollout. -/
theorem Tree.Faithful.shaped {α : Type} [Scalar α] {mdp : Mdp α} {tree : Tree Nat α}
    {rules : Rules Nat α} {start horizon : Nat} {rollout : Rollout α}
    (faithful : tree.Faithful mdp) (some : 0 < horizon)
    (retraces : tree.Retraces rules horizon start rollout) :
    rollout.Shaped mdp tree start horizon := by
  have steps_eq := retraces.steps_eq
  obtain ⟨way, rest, route, path, -, steps⟩ := retraces
  have layered := faithful.layered
  have names : rollout.path.map Prod.fst = way.map Prod.fst := by rw [path, fst_returnsOf]
  have chain := route.isChain layered
  obtain ⟨last, node, ends, found, expanded, atAction, atState⟩ := route.last some
  -- each node of the path is a node of the route
  have length : rollout.path.length = way.length := by
    simpa only [List.length_map] using congrArg List.length names
  have size := route.length_eq layered some
  have remains : (if rest = 0 then 0 else 1) = if rollout.steps = horizon then 0 else 1 := by
    simp only [show rest = 0 ↔ rollout.steps = horizon by omega]
  rw [remains] at size
  refine ⟨?_, names ▸ chain, ?_, steps_eq, by omega, fun full => ?_, fun cut => ?_, ?_, ?_⟩
  · obtain ⟨earned, later, rfl⟩ := route.starts some
    rw [names]
    rfl
  · rw [names]
    exact List.isChain_iff_pairwise.mp (chain.imp fun up down below => below.lt layered.toLinked)
  · exact ⟨last, node, names ▸ ends, found, atAction (by omega)⟩
  · obtain ⟨decision, bare⟩ := atState (by omega)
    obtain ⟨state, role⟩ := Role.eq_decision decision
    have deadlock := faithful.deadlock found role expanded bare
    exact ⟨last, node, state, names ▸ ends, found, role, deadlock⟩
  · intro state
    rw [state, Bool.toNat_false] at size
    split_ifs at size ⊢ <;> omega
  · intro action
    rw [action, Bool.toNat_true] at size
    split_ifs at size ⊢ <;> omega

/-- On a tree that was grown over a table, each rollout of at least one action
that is made has this shape, wherever it starts and however far it looks. -/
theorem Progress.shaped_of_rollout {α υ : Type} [Scalar α] [DrawSource υ α] {mdp : Mdp α}
    {root : Nat} {outcomes : List (Except (Failure α) (Rollout α))}
    {progress last : Progress (Cursor α) υ Nat α} {rules : Rules Nat α} {start horizon : Nat}
    {bias : α} {rollout : Rollout α}
    (grown : Tree.Grown (fun cursor : Cursor α => cursor.mdp = mdp) root outcomes progress.tree)
    (admitted : progress.navigator.mdp = mdp) (some : 0 < horizon)
    (made : progress.rollout rules start horizon bias = (.ok rollout, last)) :
    rollout.Shaped mdp last.tree start horizon := by
  have rolls := progress.rolls_rollout rules start horizon bias
  have more := grown.rolled progress rules start horizon bias admitted
  rw [made] at rolls more
  exact more.faithful.shaped some (rolls.retraces grown.layered)

namespace Fork

/-- After a rollout that was made and one that broke off, the third one, from
an action outside the path of the first, has the shape of a rollout. -/
theorem shaped_side : ∃ rollout, side.1 = .ok rollout ∧ rollout.Shaped table side.2.tree 4 1 := by
  have once : Tree.Grown (fun cursor : Cursor ℚ => cursor.mdp = table) 0 ([] ++ [short.1])
      short.2.tree := .rolled (planner.progress (.ofRoot 0)) planner.rules 0 2 0 .planted rfl
  have twice : Tree.Grown (fun cursor : Cursor ℚ => cursor.mdp = table) 0 ([short.1] ++ [long.1])
      long.2.tree := .rolled short.2 planner.rules 0 4 0 once (by decide +kernel)
  have kept : long.2.navigator.mdp = table := by decide +kernel
  have ended : side.1.isOk = true := by decide +kernel
  rcases h : side with ⟨_ | rollout, last⟩
  · rw [h] at ended
    cases ended
  · exact ⟨rollout, rfl, Progress.shaped_of_rollout twice kept Nat.one_pos h⟩

end Fork

end HorizonUct
