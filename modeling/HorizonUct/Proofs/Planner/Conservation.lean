import HorizonUct.Proofs.Fork
import HorizonUct.Proofs.Planner.Exploration
import Mathlib.Algebra.BigOperators.Group.List.Basic

/-!
# Visits are conserved from level to level

Each rollout of a search passes one child of every node it passes, unless it
ends there. It ends at a state without choices, or at an action below which
the horizon forbids another one: the outcome drawn last is made and not
visited. Added up over all rollouts, a node has as many visits as its children
have together, and the two ends are the only exceptions.
-/

namespace HorizonUct

/-- One more entry in front adds the times that a list has it to the counts of the list. -/
theorem sum_map_count_cons (kids : List Nat) (id : Nat) (ids : List Nat) :
    (kids.map fun kid => (id :: ids).count kid).sum =
      (kids.map fun kid => ids.count kid).sum + kids.count id := by
  induction kids with
  | nil => rfl
  | cons kid rest ih =>
    have same : (id == kid) = (kid == id) := BEq.comm
    rw [List.map_cons, List.sum_cons, ih, List.map_cons, List.sum_cons, List.count_cons,
      List.count_cons, same]
    omega

/-- The nodes that rollouts have passed, one rollout after the other. -/
def passages {α : Type} (rollouts : List (Rollout α)) : List Nat :=
  rollouts.flatMap fun rollout => rollout.path.map Prod.fst

/-- The passages of the first rollout come first. -/
theorem passages_cons {α : Type} (rollout : Rollout α) (rest : List (Rollout α)) :
    passages (rollout :: rest) = rollout.path.map Prod.fst ++ passages rest := rfl

/-- A node is paired with a return for each time it was passed. -/
theorem length_returnsAt_eq_count {α : Type} (id : Nat) (rollouts : List (Rollout α)) :
    (returnsAt id rollouts).length = (passages rollouts).count id := by
  induction rollouts with
  | nil => rfl
  | cons rollout rest ih =>
    rw [returnsAt, List.flatMap_cons, List.length_append, length_entriesAt, ← returnsAt, ih,
      passages_cons, List.count_append]

namespace Tree

variable {S α : Type} {tree : Tree S α} {id : Nat}

/-- No route ends at a node: it is not a state without children, and not an
action after which none fits in. -/
structure Onward (tree : Tree S α) (horizon id : Nat) (node : Node S α) : Prop where
  /-- A state has children. -/
  decision : node.role.isDecision = true → node.children ≠ []
  /-- After an action another one fits in. -/
  chance : node.role.isDecision = false → ∀ depth, tree.DepthAt id depth → depth + 1 < horizon

/-- No route ends at a state that has children. -/
theorem onward_of_decision {node : Node S α} (role : node.role.isDecision = true)
    (some : node.children ≠ []) (horizon : Nat) : tree.Onward horizon id node := by
  refine ⟨fun _ => some, fun chance => ?_⟩
  rw [role] at chance
  cases chance

/-- No route ends at an action after which another one fits in. -/
theorem onward_of_chance {horizon depth : Nat} {node : Node S α}
    (role : node.role.isDecision = false) (counted : tree.actionsBefore id = .ok depth)
    (fits : depth + 1 < horizon) : tree.Onward horizon id node := by
  refine ⟨fun decision => ?_, fun _ depth' depthAt => ?_⟩
  · rw [role] at decision
    cases decision
  · rw [depthAt.actionsBefore, Except.ok.injEq] at counted
    omega

variable [Scalar α] {rules : Rules S α} {left rest : Nat} {way : List (Nat × α)}

/-- A route that goes on below a node passes its children as often as the node
itself, not counting the first node of the route among the children. -/
theorem Route.conserved (route : Route rules tree left id way rest) (linked : tree.Linked)
    {other horizon depth : Nat} {node : Node S α} (found : tree.nodes[other]? = some node)
    (onward : tree.Onward horizon other node)
    (depthAt : tree.DepthAt id depth) (reach : depth + left = horizon) :
    (node.children.map fun kid => (way.map Prod.fst).count kid).sum =
      (way.map Prod.fst).count other + if id ∈ node.children ∧ 0 < left then 1 else 0 := by
  have distinct : node.children.Nodup := (linked.sorted found).imp Nat.ne_of_lt
  induction route generalizing depth with
  | horizon id =>
    simp only [List.map_nil, List.count_nil, List.map_const', List.sum_replicate_nat, Nat.mul_zero,
      Nat.lt_irrefl, and_false, if_false, Nat.add_zero]
  | @stop left id here found' _ role bare =>
    have hne : id ≠ other := by
      rintro rfl
      rw [found, Option.some.injEq] at found'
      exact onward.decision (by rw [found', role]) (by rw [found', bare])
    rw [List.map_singleton, sum_map_count_cons, distinct.count]
    simp [hne]
  | @pick left id child rest here way found' _ role below _ ih =>
    have childDepth := depthAt.atChild linked found' below
    rw [role, if_pos rfl] at childDepth
    rw [List.map_cons, sum_map_count_cons, ih childDepth reach, distinct.count, List.count_cons]
    -- the action is a child of this node only
    simp only [linked.mem_children_iff_eq found' below found, Nat.zero_lt_succ, and_true,
      beq_iff_eq]
  | @act left id child rest index label reward here way found' _ role earned fair below _ ih =>
    have childDepth := depthAt.atChild linked found' below
    rw [role, Role.isDecision, if_neg Bool.false_ne_true] at childDepth
    -- below this node an action is left to take, since another one fits in
    have left_pos : id = other → 0 < left := by
      rintro rfl
      rw [found, Option.some.injEq] at found'
      have fits := onward.chance (by rw [found', role]; rfl) depth depthAt
      omega
    rw [List.map_cons, sum_map_count_cons, ih childDepth (by omega), distinct.count,
      List.count_cons]
    simp only [linked.mem_children_iff_eq found' below found, and_iff_left_of_imp left_pos,
      Nat.zero_lt_succ, and_true, beq_iff_eq]

section Explored

variable {σ : Type} [Navigator σ S α] {kind : σ → Prop} {root : S} {horizon : Nat}
variable {rollouts : List (Rollout α)} {node : Node S α}

/-- In an explored tree a node has as many visits as it was passed. -/
theorem Explored.visits (explored : tree.Explored kind root rules horizon rollouts)
    (found : tree.nodes[id]? = some node) : node.visits = (passages rollouts).count id := by
  have learnt := (learnt_eq found).symm.trans (explored.grown.learnt.2 id)
  rw [Rollout.made_map_ok, length_returnsAt_eq_count] at learnt
  exact congrArg Prod.fst learnt

/-- A node that was passed lies above the horizon. -/
theorem Explored.shallow (explored : tree.Explored kind root rules horizon rollouts)
    (passed : id ∈ passages rollouts) : ∃ depth, tree.DepthAt id depth ∧ depth < horizon := by
  obtain ⟨rollout, hr, passed⟩ := List.mem_flatMap.mp passed
  obtain ⟨way, rest, route, path⟩ := explored.routed rollout hr
  rw [path, fst_returnsOf] at passed
  have linked := explored.grown.layered.toLinked
  obtain ⟨depth, depthAt, hlt⟩ := route.shallow linked linked.depthAt_root id passed
  exact ⟨depth, depthAt, by omega⟩

/-- A node that was passed has fewer actions above it than the horizon allows. -/
theorem Explored.actionsBefore_lt (explored : tree.Explored kind root rules horizon rollouts)
    {depth : Nat} (passed : id ∈ passages rollouts) (counted : tree.actionsBefore id = .ok depth) :
    depth < horizon := by
  obtain ⟨depth', depthAt, hlt⟩ := explored.shallow passed
  rw [depthAt.actionsBefore, Except.ok.injEq] at counted
  omega

/-- In an explored tree exactly the expanded nodes were passed. -/
theorem Explored.expanded_iff (explored : tree.Explored kind root rules horizon rollouts)
    (found : tree.nodes[id]? = some node) : node.expanded = true ↔ id ∈ passages rollouts := by
  constructor
  · intro expanded
    obtain ⟨rollout, hr, passed⟩ := explored.opened found expanded
    exact List.mem_flatMap.mpr ⟨rollout, hr, passed⟩
  · intro passed
    by_contra bare
    have none := explored.grown.unvisited found (Bool.not_eq_true _ ▸ bare)
    rw [explored.visits found, List.count_eq_zero] at none
    exact none passed

/-- Below a node where no rollout ended the children were passed as often as the node. -/
theorem Explored.conserved (explored : tree.Explored kind root rules horizon rollouts)
    (found : tree.nodes[id]? = some node) (onward : tree.Onward horizon id node) :
    (node.children.map fun kid => (passages rollouts).count kid).sum =
      (passages rollouts).count id := by
  have linked := explored.grown.layered.toLinked
  have rootless : 0 ∉ node.children := by
    intro h
    obtain ⟨_, _, _, later⟩ := linked.child found h
    exact Nat.not_lt_zero _ later
  have routed := explored.routed
  clear explored
  induction rollouts with
  | nil =>
    simp only [passages, List.flatMap_nil, List.count_nil, List.map_const', List.sum_replicate_nat,
      Nat.mul_zero]
  | cons rollout others ih =>
    obtain ⟨way, rest, route, path⟩ := routed rollout List.mem_cons_self
    have here := route.conserved linked found onward linked.depthAt_root (Nat.zero_add horizon)
    have more := ih fun other h => routed other (List.mem_cons_of_mem _ h)
    rw [if_neg fun h => rootless h.1, Nat.add_zero] at here
    simp only [passages_cons, path, fst_returnsOf, List.count_append, List.sum_map_add, here, more]

/-- The children that are looked up have as many visits as they were passed. -/
theorem Explored.visits_children (explored : tree.Explored kind root rules horizon rollouts)
    {children : List (Nat × Node S α)} (looked : tree.children id = .ok children)
    (found : tree.nodes[id]? = some node) : children.map (fun entry => entry.2.visits) =
      node.children.map fun kid => (passages rollouts).count kid := by
  rw [← children_fst looked found, List.map_map]
  exact List.map_congr_left fun entry he => explored.visits (getElem?_of_mem_children looked he)

/-- A node where no rollout ended has as many visits as its children. -/
theorem Explored.visits_eq_sum (explored : tree.Explored kind root rules horizon rollouts)
    (found : tree.nodes[id]? = some node) (onward : tree.Onward horizon id node) :
    ∃ below, tree.children id = .ok below ∧
      node.visits = (below.map fun entry => entry.2.visits).sum := by
  obtain ⟨below, looked⟩ := explored.grown.layered.toLinked.children found
  refine ⟨below, looked, ?_⟩
  rw [explored.visits_children looked found, explored.visits found,
    explored.conserved found onward]

/-- Where no rollout ended, a node was visited exactly if one of its children was. -/
theorem Explored.visited_iff (explored : tree.Explored kind root rules horizon rollouts)
    (found : tree.nodes[id]? = some node) (onward : tree.Onward horizon id node)
    {children : List (Nat × Node S α)} (looked : tree.children id = .ok children) :
    0 < node.visits ↔ ∃ entry ∈ children, 0 < entry.2.visits := by
  obtain ⟨below, looked', sum⟩ := explored.visits_eq_sum found onward
  rw [looked, Except.ok.injEq] at looked'
  rw [sum, ← looked', List.sum_pos_iff_exists_pos_nat]
  simp only [List.mem_map, exists_exists_and_eq_and]

/-- A visited state that has children has a favourite. -/
theorem Explored.favourite (explored : tree.Explored kind root rules horizon rollouts)
    (found : tree.nodes[id]? = some node) (role : node.role.isDecision = true)
    (visited : 0 < node.visits) (actions : node.children ≠ []) :
    ∃ best, tree.favourite id = .ok (some best) := by
  have linked := explored.grown.layered.toLinked
  obtain ⟨children, looked⟩ := linked.children found
  have onward : tree.Onward horizon id node := onward_of_decision role actions horizon
  obtain ⟨entry, he, passed⟩ := (explored.visited_iff found onward looked).mp visited
  obtain ⟨best?, favoured⟩ := linked.favourite found
  cases best? with
  | some best => exact ⟨best, favoured⟩
  | none =>
    have missed := favourite_eq_none favoured looked entry he
    omega

/-- Below an action after which none fits in nothing was visited. -/
theorem Explored.visits_edge (explored : tree.Explored kind root rules horizon rollouts)
    (found : tree.nodes[id]? = some node) (role : node.role.isDecision = false) {depth : Nat}
    (counted : tree.actionsBefore id = .ok depth) (last : depth + 1 = horizon) :
    ∃ below, tree.children id = .ok below ∧ ∀ entry ∈ below, entry.2.visits = 0 := by
  have linked := explored.grown.layered.toLinked
  obtain ⟨below, looked⟩ := linked.children found
  refine ⟨below, looked, fun entry he => ?_⟩
  have there := getElem?_of_mem_children looked he
  have named := fst_mem_of_mem_children looked found he
  have depthAt := (linked.depthAt_iff (lt_size found)).mpr counted
  have childDepth := depthAt.atChild linked found named
  rw [role, if_neg Bool.false_ne_true, last] at childDepth
  rw [explored.visits there, List.count_eq_zero]
  intro passed
  exact Nat.lt_irrefl _ (explored.actionsBefore_lt passed childDepth.actionsBefore)

end Explored

/-- Visits are conserved from level to level, down to a horizon. -/
structure Conserves (horizon : Nat) (tree : Tree S α) : Prop where
  /-- At most as many actions as the horizon allows lie above a node, and fewer above an action. -/
  depth : ∀ {id : Nat} {node : Node S α}, tree.nodes[id]? = some node →
    ∃ depth, tree.actionsBefore id = .ok depth ∧ depth ≤ horizon ∧
      (node.role.isDecision = false → depth + 1 ≤ horizon)
  /-- The expanded nodes are those that have visits. -/
  expanded_iff : ∀ {id : Nat} {node : Node S α}, tree.nodes[id]? = some node →
    (node.expanded = true ↔ 0 < node.visits)
  /-- A state at the horizon has neither visits nor children. -/
  brim : ∀ {id : Nat} {node : Node S α}, tree.nodes[id]? = some node →
    node.role.isDecision = true → tree.actionsBefore id = .ok horizon →
      node.visits = 0 ∧ node.children = []
  /-- A visited state has as many visits as its actions have, unless it has none. -/
  decision : ∀ {id : Nat} {node : Node S α}, tree.nodes[id]? = some node →
    node.role.isDecision = true → 0 < node.visits →
      ∃ below, tree.children id = .ok below ∧
        (below = [] ∨ node.visits = (below.map fun entry => entry.2.visits).sum)
  /-- A visited action has as many visits as its outcomes have, if another action fits in. -/
  chance : ∀ {id depth : Nat} {node : Node S α}, tree.nodes[id]? = some node →
    node.role.isDecision = false → tree.actionsBefore id = .ok depth → depth + 1 < horizon →
      0 < node.visits → ∃ below, tree.children id = .ok below ∧
        node.visits = (below.map fun entry => entry.2.visits).sum
  /-- Below an action after which none fits in no outcome has visits. -/
  edge : ∀ {id depth : Nat} {node : Node S α}, tree.nodes[id]? = some node →
    node.role.isDecision = false → tree.actionsBefore id = .ok depth → depth + 1 = horizon →
      ∃ below, tree.children id = .ok below ∧ ∀ entry ∈ below, entry.2.visits = 0

section Search

variable {σ υ : Type} [Navigator σ S α] [DrawSource υ α] {kind : σ → Prop} {root : S}
variable {horizon : Nat} {rollouts : List (Rollout α)}

/-- No node of an explored tree lies below more actions than the horizon allows. -/
theorem Explored.depth_le (explored : tree.Explored kind root rules horizon rollouts)
    {node : Node S α} (found : tree.nodes[id]? = some node) :
    ∃ depth, tree.DepthAt id depth ∧ depth ≤ horizon ∧
      (node.role.isDecision = false → depth + 1 ≤ horizon) := by
  have layered := explored.grown.layered
  rcases Nat.eq_zero_or_pos id with rfl | hpos
  · refine ⟨0, layered.toLinked.depthAt_root, Nat.zero_le _, fun role => ?_⟩
    rw [layered.decision_root found] at role
    cases role
  · obtain ⟨up, parent, -, hp, hu, below⟩ := layered.toLinked.parent found hpos
    have expanded := layered.expanded hu (List.ne_nil_of_mem below)
    obtain ⟨depth, depthUp, hlt⟩ := explored.shallow ((explored.expanded_iff hu).mp expanded)
    have depthAt := depthUp.atChild layered.toLinked hu below
    refine ⟨_, depthAt, ?_, fun role => ?_⟩
    · split <;> omega
    · rw [layered.flips found hp hu, Bool.not_eq_false'] at role
      rw [if_pos role]
      omega

/-- Visits are conserved in an explored tree. -/
theorem Explored.conserves (explored : tree.Explored kind root rules horizon rollouts) :
    tree.Conserves horizon := by
  have layered := explored.grown.layered
  refine ⟨?_, ?_, ?_, ?_, ?_, ?_⟩
  · intro id node found
    obtain ⟨depth, depthAt, hle, hchance⟩ := explored.depth_le found
    exact ⟨depth, depthAt.actionsBefore, hle, hchance⟩
  · intro id node found
    rw [explored.visits found, List.count_pos_iff, explored.expanded_iff found]
  · intro id node found role counted
    have unpassed : id ∉ passages rollouts :=
      fun passed => Nat.lt_irrefl _ (explored.actionsBefore_lt passed counted)
    have bare : node.expanded = false := by
      rw [← Bool.not_eq_true, explored.expanded_iff found]
      exact unpassed
    exact ⟨by rw [explored.visits found, List.count_eq_zero.mpr unpassed], layered.bare found bare⟩
  · intro id node found role _
    by_cases none : node.children = []
    · obtain ⟨below, looked⟩ := layered.toLinked.children found
      have names := children_fst looked found
      rw [none] at names
      exact ⟨below, looked, .inl (List.map_eq_nil_iff.mp names)⟩
    · obtain ⟨below, looked, sum⟩ :=
        explored.visits_eq_sum found (onward_of_decision role none horizon)
      exact ⟨below, looked, .inr sum⟩
  · intro id depth node found role counted fits _
    exact explored.visits_eq_sum found (onward_of_chance role counted fits)
  · intro id depth node found role counted last
    exact explored.visits_edge found role counted last

/-- In the tree of every search that comes to its end visits are conserved. -/
theorem conserves_of_search {planner planner' : Planner σ υ S α} {clock : Nat → Nat}
    {horizon budget : Nat} {findings : Findings S α}
    (h : planner.searchWithin clock horizon budget = (.ok findings, planner')) :
    findings.tree.Conserves horizon := by
  obtain ⟨-, -, root, rollouts, -, explored⟩ := Planner.explored_of_search tracks_any trivial h
  exact explored.conserves

end Search

end Tree

/-- Four rollouts of at most two actions conserve their visits. -/
theorem Fork.conserves_of_four : ∃ findings planner',
    planner.searchWithin (fun _ => 0) 2 4 = (.ok findings, planner') ∧
      findings.tree.Conserves 2 := by
  have ended : (planner.searchWithin (fun _ => 0) 2 4).1.isOk = true := by decide +kernel
  rcases h : planner.searchWithin (fun _ => 0) 2 4 with ⟨_ | findings, planner'⟩
  · rw [h] at ended
    cases ended
  · exact ⟨findings, planner', rfl, Tree.conserves_of_search h⟩

end HorizonUct
