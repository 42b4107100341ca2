import HorizonUct.Proofs.Attempt
import HorizonUct.Proofs.Tree.Steps

/-!
# Which state a node belongs to

A node for a state belongs to that state, a node for an action to the state
above it. In a layered tree every node belongs to a state, and it keeps
belonging to that one as the tree grows.
-/

namespace HorizonUct

/-- A role that makes a decision has a state. -/
theorem Role.eq_decision {S : Type} {role : Role S} (h : role.isDecision = true) :
    ∃ state, role = .decision state := by
  cases role with
  | decision state => exact ⟨state, rfl⟩
  | chance index label => cases h

/-- A role that makes no decision has a place among the choices and a label. -/
theorem Role.eq_chance {S : Type} {role : Role S} (h : role.isDecision = false) :
    ∃ index label, role = .chance index label := by
  cases role with
  | decision state => cases h
  | chance index label => exact ⟨index, label, rfl⟩

/-- A role has a state exactly if it makes a decision there. -/
theorem Role.state?_eq_some_iff {S : Type} {role : Role S} {state : S} :
    role.state? = some state ↔ role = .decision state := by
  cases role <;> simp [Role.state?]

/-- A role has a label exactly if it is an action with it. -/
theorem Role.label?_eq_some_iff {S : Type} {role : Role S} {label : String} :
    role.label? = some label ↔ ∃ index, role = .chance index label := by
  cases role <;> simp [Role.label?]

namespace Tree

variable {S α : Type} {tree : Tree S α} {id : Nat} {node : Node S α} {state : S}

/-- A node for a state belongs to it. -/
theorem stateOf_decision (hn : tree.nodes[id]? = some node) (hr : node.role = .decision state) :
    tree.stateOf id = .ok (some state) := by
  rw [stateOf, node_eq_ok_iff.mpr hn, Attempt.bind_eq_ok_iff]
  exact ⟨node, rfl, by rw [hr]; rfl⟩

/-- A node for an action belongs to the state above it. -/
theorem stateOf_chance {up : Nat} {parent : Node S α} (hn : tree.nodes[id]? = some node)
    (hr : node.role.isDecision = false) (hp : node.parent = some up)
    (hu : tree.nodes[up]? = some parent) (hs : parent.role = .decision state) :
    tree.stateOf id = .ok (some state) := by
  obtain ⟨index, label, hr⟩ := Role.eq_chance hr
  rw [stateOf, node_eq_ok_iff.mpr hn, Attempt.bind_eq_ok_iff]
  refine ⟨node, rfl, ?_⟩
  rw [hr, hp]
  dsimp only
  rw [Attempt.bind_eq_ok_iff]
  exact ⟨parent, node_eq_ok_iff.mpr hu, by rw [hs]; rfl⟩

/-- What it takes to belong to a state. -/
theorem stateOf_eq_some (h : tree.stateOf id = .ok (some state)) :
    ∃ node, tree.nodes[id]? = some node ∧ (node.role = .decision state ∨
      node.role.isDecision = false ∧ ∃ up parent, node.parent = some up ∧
        tree.nodes[up]? = some parent ∧ parent.role = .decision state) := by
  rw [stateOf, Attempt.bind_eq_ok_iff] at h
  obtain ⟨node, hn, h⟩ := h
  refine ⟨node, node_eq_ok_iff.mp hn, ?_⟩
  cases hr : node.role with
  | decision own =>
    rw [hr] at h
    cases h
    exact .inl rfl
  | chance index label =>
    rw [hr] at h
    cases hp : node.parent with
    | none =>
      rw [hp] at h
      cases h
    | some up =>
      rw [hp] at h
      obtain ⟨parent, hu, h⟩ := Attempt.bind_eq_ok_iff.mp h
      have hs := Except.ok.inj h
      refine .inr ⟨rfl, up, parent, rfl, node_eq_ok_iff.mp hu, ?_⟩
      cases hpr : parent.role with
      | decision own =>
        rw [hpr] at hs
        rw [Option.some.inj hs]
      | chance index label =>
        rw [hpr] at hs
        cases hs

/-- A node keeps belonging to its state as the tree grows. -/
theorem Extends.stateOf {new : Tree S α} (h : tree.Extends new)
    (hs : tree.stateOf id = .ok (some state)) : new.stateOf id = .ok (some state) := by
  obtain ⟨node, hn, hr⟩ := stateOf_eq_some hs
  obtain ⟨after, ha, kept⟩ := h hn
  rcases hr with hr | ⟨hr, up, parent, hp, hu, hps⟩
  · exact stateOf_decision ha (kept.role.trans hr)
  · obtain ⟨parent', hu', kept'⟩ := h hu
    exact stateOf_chance ha (by rw [kept.role, hr]) (kept.parent.trans hp) hu'
      (kept'.role.trans hps)

/-- The parent of a node in a linked table stands in the table. -/
theorem Linked.parent (linked : tree.Linked) (hn : tree.nodes[id]? = some node) (hid : 0 < id) :
    ∃ up parent, up < id ∧ node.parent = some up ∧ tree.nodes[up]? = some parent ∧
      id ∈ parent.children := by
  obtain ⟨up, hlt, hp⟩ := linked.parent_lt hn hid
  obtain ⟨parent, hu⟩ := exists_of_lt (Nat.lt_trans hlt (lt_size hn))
  exact ⟨up, parent, hlt, hp, hu, (linked.mem_children hu id).mpr ⟨node, hn, hp⟩⟩

/-- A child of a node comes after it, and names it as its parent. -/
theorem Linked.child (linked : tree.Linked) (hn : tree.nodes[id]? = some node) {other : Nat}
    (hc : other ∈ node.children) : ∃ child, tree.nodes[other]? = some child ∧
      child.parent = some id ∧ id < other := by
  obtain ⟨child, hchild, hp⟩ := (linked.mem_children hn other).mp hc
  exact ⟨child, hchild, hp, linked.lt_of_parent hchild hp⟩

/-- A node with children is expanded. -/
theorem Layered.expanded (layered : tree.Layered) (found : tree.nodes[id]? = some node)
    (some : node.children ≠ []) : node.expanded = true := by
  by_contra bare
  exact some (layered.bare found (Bool.not_eq_true _ ▸ bare))

/-- A child of a node is a child of no other. -/
theorem Linked.mem_children_iff_eq (linked : tree.Linked) {above : Node S α} {other child : Nat}
    (ha : tree.nodes[other]? = some above) (hc : child ∈ above.children)
    (hn : tree.nodes[id]? = some node) : child ∈ node.children ↔ other = id := by
  obtain ⟨below, hb, hp, -⟩ := linked.child ha hc
  rw [linked.mem_children hn child]
  constructor
  · rintro ⟨below', hb', hp'⟩
    rw [hb, Option.some.injEq] at hb'
    rw [← hb', hp, Option.some.injEq] at hp'
    exact hp'
  · rintro rfl
    exact ⟨below, hb, hp⟩

/-- In a layered tree an action has a state above it. -/
theorem Layered.stateOf_chance (layered : tree.Layered) (hn : tree.nodes[id]? = some node)
    (hr : node.role.isDecision = false) : ∃ up parent state, node.parent = some up ∧
      tree.nodes[up]? = some parent ∧ parent.role = .decision state ∧
        tree.stateOf id = .ok (some state) := by
  have hpos : 0 < id := by
    rcases Nat.eq_zero_or_pos id with rfl | hpos
    · rw [layered.decision_root hn] at hr
      cases hr
    · exact hpos
  obtain ⟨up, parent, -, hp, hu, -⟩ := layered.toLinked.parent hn hpos
  have hflip := layered.flips hn hp hu
  rw [hr, eq_comm, Bool.not_eq_false'] at hflip
  obtain ⟨state, hs⟩ := Role.eq_decision hflip
  exact ⟨up, parent, state, hp, hu, hs, Tree.stateOf_chance hn hr hp hu hs⟩

/-- In a layered tree every node belongs to a state. -/
theorem Layered.belongs (layered : tree.Layered) (hn : tree.nodes[id]? = some node) :
    ∃ state, tree.stateOf id = .ok (some state) := by
  cases hr : node.role with
  | decision state => exact ⟨state, stateOf_decision hn hr⟩
  | chance index label =>
    obtain ⟨-, -, state, -, -, -, owner⟩ := layered.stateOf_chance hn (by rw [hr]; rfl)
    exact ⟨state, owner⟩

end Tree

end HorizonUct
