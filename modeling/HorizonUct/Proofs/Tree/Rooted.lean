import HorizonUct.Proofs.Tree.Census
import HorizonUct.Proofs.Tree.Expansion

/-!
# Tables that are trees

Whatever is done to a tree, and whether it succeeds or breaks off, its table
stays the table of a tree: it has one root, every other node stands in the list
of its parent and in no other place, and the way upwards from a node comes to
the root. So the actions above a node can be counted, and the count of a child
follows from that of its parent. All this takes is that a node has no children
of its own when it is put in; they come to it later.
-/

namespace HorizonUct.Tree

variable {S α : Type}

/-- The way upwards from a node, from parent to parent, comes to the root. -/
inductive Ascends (tree : Tree S α) : Nat → Prop where
  /-- It is at the root. -/
  | root : Ascends tree 0
  /-- It goes on from the parent of the node. -/
  | above {id up : Nat} {node : Node S α} (found : tree.nodes[id]? = some node)
      (named : node.parent = some up) (rest : Ascends tree up) : Ascends tree id

/-- A table that is a tree with its root in front. -/
structure Rooted (tree : Tree S α) : Prop where
  /-- The root has no parent. -/
  parent_root : tree.root.parent = none
  /-- The parent of every other node stands before it. -/
  parent_lt : ∀ {id : Nat} {node : Node S α}, tree.nodes[id]? = some node → 0 < id →
    ∃ up < id, node.parent = some up
  /-- Every other node is named in the list of its parent. -/
  named : ∀ {id up : Nat} {node : Node S α}, tree.nodes[id]? = some node →
    node.parent = some up → id ∈ tree.kids up
  /-- All lists of children together name every other node once, and nothing else. -/
  once : ∀ id, ((List.range tree.size).flatMap tree.kids).count id =
    if 0 < id ∧ id < tree.size then 1 else 0
  /-- Children stand in the order of the table. -/
  sorted : ∀ id, (tree.kids id).Pairwise (· < ·)
  /-- From every node the way upwards comes to the root. -/
  ascends : ∀ {id : Nat}, id < tree.size → tree.Ascends id
  /-- No actions lie above the root. -/
  depth_root : tree.actionsBefore 0 = .ok 0
  /-- The actions above a child are those above its parent, and one more if the
  parent is an action; both counts come to an end. -/
  depth_child : ∀ {id up : Nat} {node parent : Node S α}, tree.nodes[id]? = some node →
    node.parent = some up → tree.nodes[up]? = some parent →
      ∃ depth, tree.actionsBefore up = .ok depth ∧
        tree.actionsBefore id = .ok (if parent.role.isDecision then depth else depth + 1)

variable {tree : Tree S α}

/-- Parents stand before their children, so going upwards comes to the root. -/
theorem Linked.ascends (linked : tree.Linked) {id : Nat} (here : id < tree.size) :
    tree.Ascends id := by
  -- every step upwards leads to a smaller index
  induction id using Nat.strongRecOn with
  | ind id ih =>
    obtain ⟨node, found⟩ := exists_of_lt here
    rcases Nat.eq_zero_or_pos id with rfl | later
    · exact .root
    · obtain ⟨up, before, named⟩ := linked.parent_lt found later
      exact .above found named (ih up before (Nat.lt_trans before here))

/-- All lists of children together name each node but the root once. -/
theorem Linked.count_kids (linked : tree.Linked) (id : Nat) :
    ((List.range tree.size).flatMap tree.kids).count id =
      if 0 < id ∧ id < tree.size then 1 else 0 := by
  have some := tree.size_pos
  have bound : id ∈ List.range' 1 (tree.size - 1) ↔ 0 < id ∧ id < tree.size := by
    rw [List.mem_range'_1]
    unfold size at some ⊢
    omega
  rw [linked.kids_perm.count_eq, (List.nodup_range').count]
  simp only [bound]

/-- A linked table is a tree. -/
theorem Linked.rooted (linked : tree.Linked) : tree.Rooted where
  parent_root := linked.parent_root (getElem?_root tree)
  parent_lt := linked.parent_lt
  named := by
    intro id up node found named
    have here : up < tree.size :=
      Nat.lt_trans (linked.lt_of_parent found named) (lt_size found)
    obtain ⟨parent, there⟩ := exists_of_lt here
    rw [kids_eq there]
    exact (linked.mem_children there id).mpr ⟨node, found, named⟩
  once := linked.count_kids
  sorted := by
    intro id
    cases found : tree.nodes[id]? with
    | some node =>
      rw [kids_eq found]
      exact linked.sorted found
    | none =>
      rw [kids, found]
      exact List.Pairwise.nil
  ascends := linked.ascends
  depth_root := linked.depthAt_root.actionsBefore
  depth_child := by
    intro id up node parent found named there
    obtain ⟨depth, depthAt⟩ := linked.exists_depthAt (lt_size there)
    have below := (linked.mem_children there id).mpr ⟨node, found, named⟩
    exact ⟨depth, depthAt.actionsBefore, (depthAt.atChild linked there below).actionsBefore⟩

/-- Whatever node without children of its own is put under whatever, whichever
children are made or refused and however rollouts end, the table is a tree. -/
theorem rooted_of_built [Scalar α] (built : tree.Built) : tree.Rooted :=
  built.linked.rooted

end HorizonUct.Tree

namespace HorizonUct.Fork

/-- After both rollouts of the ghostly tree, a state that names a strange parent
is put under a state. -/
def misplaced : Tree Nat ℚ :=
  (relief.2.tree.attach 0 { Node.decision 2 none with parent := some 9 }).1

/-- Two of three children below another node are told, and the third is refused. -/
def orchard : Tree Nat ℚ := (misplaced.expand 4 (Forgetful.mk 2)).2

/-- It is a tree all the same. -/
theorem rooted_orchard : orchard.Built ∧ orchard.Rooted := by
  have built : ghost.Built := .attached (.planted 0) (by decide) rfl
  have scared : scare.2.tree.Built :=
    .rolled (planner.progress ghost) built planner.rules 0 2 0
  have relieved : relief.2.tree.Built := .rolled scare.2 scared planner.rules 2 1 0
  have built' : misplaced.Built := .attached relieved (by decide +kernel) rfl
  have grown : orchard.Built := .expanded built' 4 (Forgetful.mk 2)
  exact ⟨grown, Tree.rooted_of_built grown⟩

end HorizonUct.Fork
