import HorizonUct.Proofs.Tree.Depth
import HorizonUct.Proofs.Tree.Picks

/-!
# Trees whose levels alternate

What reads advice off a tree needs to know little of it: that the root stands
for a state, and that the children which a node names come later, name it as
their parent and are of the other kind. Every layered tree is of this shape,
and so is one in which children stand out of order, some nodes stand nowhere,
or a node has got children without being expanded.
-/

namespace HorizonUct.Tree

variable {S α : Type} {tree : Tree S α} {id : Nat} {node : Node S α}

/-- A tree whose levels alternate below a state, each node after its parent. -/
structure Branching (tree : Tree S α) : Prop where
  /-- The root stands for a state. -/
  decision_root : tree.root.role.isDecision = true
  /-- The root has no parent. -/
  parent_root : tree.root.parent = none
  /-- A child comes later than the node that names it, names that in turn, and
  is of the other kind. -/
  child : ∀ {id other : Nat} {node : Node S α}, tree.nodes[id]? = some node →
    other ∈ node.children → ∃ child, tree.nodes[other]? = some child ∧ child.parent = some id ∧
      id < other ∧ child.role.isDecision = !node.role.isDecision
  /-- No child is named twice. -/
  once : ∀ {id : Nat} {node : Node S α}, tree.nodes[id]? = some node → node.children.Nodup

/-- The levels of a layered tree alternate. -/
theorem Layered.branching (layered : tree.Layered) : tree.Branching := by
  have root := getElem?_root tree
  refine ⟨layered.decision_root root, layered.parent_root root, fun found below => ?_,
    fun found => (layered.sorted found).imp Nat.ne_of_lt⟩
  obtain ⟨child, there, parent, later⟩ := layered.toLinked.child found below
  exact ⟨child, there, parent, later, layered.flips there parent found⟩

namespace Branching

/-- The root is at depth nought. -/
theorem depthAt_root (branching : tree.Branching) : tree.DepthAt 0 0 :=
  .root (getElem?_root tree) branching.parent_root

/-- A child is as deep as its parent, or deeper by one below an action. -/
theorem depthAt_child (branching : tree.Branching) {depth other : Nat}
    (depthAt : tree.DepthAt id depth) (found : tree.nodes[id]? = some node)
    (below : other ∈ node.children) :
    tree.DepthAt other (if node.role.isDecision then depth else depth + 1) := by
  obtain ⟨child, there, parent, later, -⟩ := branching.child found below
  exact .child there parent later found depthAt

/-- A node of the other kind may be put under any node, expanded or not. -/
theorem attach (branching : tree.Branching) {parent : Nat} {child : Node S α}
    (found : tree.nodes[parent]? = some node) (bare : child.children = [])
    (flips : child.role.isDecision = !node.role.isDecision) :
    (tree.attach parent child).1.Branching := by
  have present := lt_size found
  have root : ∃ children, (tree.attach parent child).1.root =
      { tree.root with children := children } := by
    have here := @attach_old _ _ tree parent 0 child _ (getElem?_root tree)
    rw [getElem?_root, Option.some.injEq] at here
    rw [here]
    split <;> exact ⟨_, rfl⟩
  obtain ⟨_, root⟩ := root
  -- whatever was named before is still there in its place
  have old : ∀ {id other : Nat} {before : Node S α}, tree.nodes[id]? = some before →
      other ∈ before.children → ∃ below, (tree.attach parent child).1.nodes[other]? = some below ∧
        below.parent = some id ∧ id < other ∧ below.role.isDecision = !before.role.isDecision := by
    intro id other before hb mem
    obtain ⟨below, there, up, later, flips⟩ := branching.child hb mem
    refine ⟨_, attach_old there, ?_⟩
    split <;> exact ⟨up, later, flips⟩
  refine ⟨by rw [root]; exact branching.decision_root, by rw [root]; exact branching.parent_root,
    fun {id other after} ha mem => ?_, fun {id after} ha => ?_⟩
  · rcases attach_cases present ha with ⟨-, rfl⟩ | ⟨before, hb, rfl⟩
    · rw [bare] at mem
      cases mem
    · by_cases he : parent = id
      · subst he
        rw [found, Option.some.injEq] at hb
        subst hb
        rw [if_pos rfl] at mem ⊢
        rcases List.mem_append.mp mem with mem | mem
        · have kept := old found mem
          exact kept
        · rw [List.mem_singleton.mp mem]
          exact ⟨_, attach_new present, rfl, present, flips⟩
      · rw [if_neg he] at mem ⊢
        exact old hb mem
  · rcases attach_cases present ha with ⟨-, rfl⟩ | ⟨before, hb, rfl⟩
    · rw [bare]
      exact List.nodup_nil
    · have once := branching.once hb
      split
      · refine List.nodup_append.mpr ⟨once, List.pairwise_singleton _ _, fun other mem new hn => ?_⟩
        obtain ⟨below, there, -⟩ := branching.child hb mem
        have late := List.mem_singleton.mp hn
        have inside := lt_size there
        omega
      · exact once

/-- All children are found. -/
theorem children (branching : tree.Branching) (found : tree.nodes[id]? = some node) :
    ∃ children, tree.children id = .ok children := by
  refine children_ok found fun other below => ?_
  obtain ⟨child, there, -⟩ := branching.child found below
  exact lt_size there

variable [Scalar α]

/-- Exploiting finds all that it looks at. -/
theorem favourite_ok (branching : tree.Branching) (found : tree.nodes[id]? = some node) :
    ∃ best, tree.favourite id = .ok best := by
  obtain ⟨children, looked⟩ := branching.children found
  exact favourite_of_children looked

/-- Below a state that has a favourite, that is an action of it. -/
theorem favourite (branching : tree.Branching) (found : tree.nodes[id]? = some node)
    (role : node.role.isDecision = true) {best : Nat} (h : tree.favourite id = .ok (some best)) :
    ∃ action place label outcomes, best ∈ node.children ∧ tree.nodes[best]? = some action ∧
      action.parent = some id ∧ 0 < action.visits ∧ action.role = .chance place label ∧
        tree.children best = .ok outcomes := by
  obtain ⟨below, action, there, visited⟩ := favourite_eq_some h found
  obtain ⟨action', there', parent, -, flips⟩ := branching.child found below
  rw [there, Option.some.injEq] at there'
  subst there'
  rw [role] at flips
  obtain ⟨place, label, chance⟩ := Role.eq_chance flips
  obtain ⟨outcomes, looked⟩ := branching.children there
  exact ⟨action, place, label, outcomes, below, there, parent, visited, chance, looked⟩

end Branching

end HorizonUct.Tree
