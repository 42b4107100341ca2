import HorizonUct.Proofs.Tree.Owners

/-!
# How many actions lie above a node

The actions on the way to a node are counted from the root down: a child lies
below one action more than its parent if the parent is an action, and below as
many otherwise. In a linked table the count upwards never runs out of steps
and comes to that number. It stays as the tree grows.
-/

namespace HorizonUct.Tree

variable {S α : Type} {tree : Tree S α} {id depth : Nat}

/-- How many actions lie above a node, counted from the root down. -/
inductive DepthAt (tree : Tree S α) : Nat → Nat → Prop where
  /-- There is nothing above the root. -/
  | root {node : Node S α} (found : tree.nodes[0]? = some node) (top : node.parent = none) :
      DepthAt tree 0 0
  /-- A node lies one action deeper than its parent if that is an action. -/
  | child {id up depth : Nat} {node parent : Node S α} (found : tree.nodes[id]? = some node)
      (above : node.parent = some up) (later : up < id) (here : tree.nodes[up]? = some parent)
      (depthUp : DepthAt tree up depth) :
      DepthAt tree id (if parent.role.isDecision then depth else depth + 1)

/-- The root is at depth nought. -/
theorem Linked.depthAt_root (linked : tree.Linked) : tree.DepthAt 0 0 :=
  .root (getElem?_root tree) (linked.parent_root (getElem?_root tree))

/-- A child is as deep as its parent, or deeper by one below an action. -/
theorem DepthAt.atChild (depthAt : tree.DepthAt id depth) (linked : tree.Linked) {node : Node S α}
    {other : Nat} (found : tree.nodes[id]? = some node) (below : other ∈ node.children) :
    tree.DepthAt other (if node.role.isDecision then depth else depth + 1) := by
  obtain ⟨child, hc, hp, later⟩ := linked.child found below
  exact .child hc hp later found depthAt

/-- In a linked table every node has a depth. -/
theorem Linked.exists_depthAt (linked : tree.Linked) (h : id < tree.size) :
    ∃ depth, tree.DepthAt id depth := by
  induction id using Nat.strongRecOn with
  | ind id ih =>
    obtain ⟨node, found⟩ := exists_of_lt h
    rcases Nat.eq_zero_or_pos id with rfl | hpos
    · exact ⟨0, linked.depthAt_root⟩
    · obtain ⟨up, parent, later, hp, hu, -⟩ := linked.parent found hpos
      obtain ⟨depth, depthUp⟩ := ih up later (Nat.lt_trans later h)
      exact ⟨_, .child found hp later hu depthUp⟩

/-- The count upwards from a node comes to its depth, and one more for an action. -/
theorem DepthAt.actionsUpwards (depthAt : tree.DepthAt id depth) {node : Node S α}
    (found : tree.nodes[id]? = some node) {steps : Nat} (enough : id < steps) :
    tree.actionsUpwards steps (some id) =
      .ok (if node.role.isDecision then depth else depth + 1) := by
  induction depthAt generalizing steps node with
  | root found' top =>
    obtain ⟨steps, rfl⟩ := Nat.exists_eq_succ_of_ne_zero (Nat.ne_of_gt enough)
    rw [found, Option.some.injEq] at found'
    rw [Tree.actionsUpwards, node_eq_ok_iff.mpr found]
    dsimp only
    rw [found', top, Tree.actionsUpwards]
  | @child id up depth _ parent found' above later here depthUp ih =>
    obtain ⟨steps, rfl⟩ := Nat.exists_eq_succ_of_ne_zero (Nat.ne_of_gt (Nat.zero_lt_of_lt enough))
    rw [found, Option.some.injEq] at found'
    rw [Tree.actionsUpwards, node_eq_ok_iff.mpr found]
    dsimp only
    rw [← found'] at above
    rw [above, ih here (Nat.lt_of_lt_of_le later (Nat.le_of_lt_succ enough))]

/-- In a linked table as many actions were taken before a node as its depth says. -/
theorem DepthAt.actionsBefore (depthAt : tree.DepthAt id depth) :
    tree.actionsBefore id = .ok depth := by
  cases depthAt with
  | root found top =>
    rw [Tree.actionsBefore, node_eq_ok_iff.mpr found]
    dsimp only
    rw [top, Tree.actionsUpwards]
  | child found above later here depthUp =>
    rw [Tree.actionsBefore, node_eq_ok_iff.mpr found]
    dsimp only
    rw [above, depthUp.actionsUpwards here (Nat.lt_trans later (lt_size found))]

/-- In a linked table the depth of a node is the actions taken before it. -/
theorem Linked.depthAt_iff (linked : tree.Linked) (h : id < tree.size) :
    tree.DepthAt id depth ↔ tree.actionsBefore id = .ok depth := by
  refine ⟨DepthAt.actionsBefore, fun counted => ?_⟩
  obtain ⟨other, depthAt⟩ := linked.exists_depthAt h
  rw [depthAt.actionsBefore, Except.ok.injEq] at counted
  exact counted ▸ depthAt

end HorizonUct.Tree
