import HorizonUct.Proofs.Rollout.Shape
import Mathlib.Algebra.Order.BigOperators.Group.Finset

/-!
# Counting the nodes of a tree

Every node but the root is a child of one other node. So a tree has one node
more than all nodes together have children, and where it unrolls a table these
are the choices and the outcomes that the table gives to expanded nodes. A list
of indices is counted likewise, node by node.
-/

namespace HorizonUct

/-- How many children a table gives to a node that belongs to a state: one for
each choice of the state, or for each outcome of the choice. -/
def Mdp.fanOut {α : Type} (mdp : Mdp α) (state : Nat) : Role Nat → Nat
  | .decision _ => (mdp.states[state]?.getD []).length
  | .chance index _ => ((mdp.states[state]?.getD [])[index]?.elim [] Choice.outcomes).length

/-- There are as many children as the table lists. -/
theorem Mdp.length_offspring {α : Type} {mdp : Mdp α} {state : Nat} {role : Role Nat}
    {specs : List (Role Nat × Option α)} (told : mdp.offspring state role = some specs) :
    specs.length = mdp.fanOut state role := by
  cases role with
  | decision own =>
    obtain ⟨choices, listed, rfl⟩ := Option.map_eq_some_iff.mp told
    rw [List.length_map, List.length_zipIdx, fanOut, listed, Option.getD_some]
  | chance index label =>
    obtain ⟨choice, placed, rfl⟩ := Option.map_eq_some_iff.mp told
    obtain ⟨choices, listed, placed⟩ := Option.bind_eq_some_iff.mp placed
    rw [List.length_map, fanOut, listed, Option.getD_some, placed, Option.elim_some]

namespace Tree

section Nodes

variable {S α : Type} {tree : Tree S α} {id : Nat} {node : Node S α}

/-- The children of a node, none if there is no such node. -/
def kids (tree : Tree S α) (id : Nat) : List Nat := tree.nodes[id]?.elim [] Node.children

/-- The children of a node that is there. -/
theorem kids_eq (found : tree.nodes[id]? = some node) : tree.kids id = node.children := by
  rw [kids, found, Option.elim_some]

/-- What is read off the nodes in order can be looked up by their indices. -/
theorem map_nodes_eq {β : Type} {read : Node S α → β} {look : Nat → β}
    (same : ∀ id node, tree.nodes[id]? = some node → read node = look id) :
    tree.nodes.toList.map read = (List.range tree.size).map look := by
  refine List.ext_getElem (by simp [size]) fun id here there => ?_
  rw [List.getElem_map, List.getElem_map, List.getElem_range, Array.getElem_toList]
  exact same id _ (Array.getElem?_eq_getElem _)

/-- The nodes other than the root are the children of all nodes. -/
theorem Linked.kids_perm (linked : tree.Linked) :
    ((List.range tree.size).flatMap tree.kids).Perm (List.range' 1 (tree.size - 1)) := by
  have distinct : ((List.range tree.size).flatMap tree.kids).Nodup := by
    refine List.nodup_flatMap.mpr ⟨fun id here => ?_, ?_⟩
    · obtain ⟨node, found⟩ := exists_of_lt (List.mem_range.mp here)
      rw [kids_eq found]
      exact (linked.sorted found).imp Nat.ne_of_lt
    · -- no node is a child of two others
      refine List.nodup_range.imp_of_mem fun {first second} hf hs apart => ?_
      obtain ⟨node, found⟩ := exists_of_lt (List.mem_range.mp hf)
      obtain ⟨other, there⟩ := exists_of_lt (List.mem_range.mp hs)
      rw [Function.onFun, kids_eq found, kids_eq there]
      intro child below below'
      exact apart ((linked.mem_children_iff_eq found below there).mp below')
  refine (List.perm_ext_iff_of_nodup distinct List.nodup_range').mpr fun child => ?_
  rw [List.mem_flatMap, List.mem_range'_1]
  have some := tree.size_pos
  constructor
  · rintro ⟨id, here, below⟩
    obtain ⟨node, found⟩ := exists_of_lt (List.mem_range.mp here)
    rw [kids_eq found] at below
    obtain ⟨entry, there, -, later⟩ := linked.child found below
    have bound := lt_size there
    omega
  · rintro ⟨later, bound⟩
    have inside : child < tree.size := by omega
    obtain ⟨node, found⟩ := exists_of_lt inside
    obtain ⟨up, parent, before, -, there, below⟩ := linked.parent found later
    exact ⟨up, List.mem_range.mpr (lt_size there), by rwa [kids_eq there]⟩

/-- A tree has one node more than all nodes together have children. -/
theorem Linked.size_eq (linked : tree.Linked) :
    tree.size = 1 + ((List.range tree.size).map fun id => (tree.kids id).length).sum := by
  have total := linked.kids_perm.length_eq
  rw [List.length_flatMap, List.length_range'] at total
  have some := tree.size_pos
  unfold size at some total ⊢
  omega

/-- The visits of all nodes that stand for actions, added up. -/
def actionVisits (tree : Tree S α) : Nat :=
  (tree.nodes.toList.map fun node => if node.role.isDecision then 0 else node.visits).sum

/-- What stands for an action is a node. -/
theorem lt_size_of_isAction (action : tree.isAction id = true) : id < tree.size := by
  cases found : tree.nodes[id]? with
  | some node => exact lt_size found
  | none =>
    rw [isAction, found] at action
    cases action

/-- Where each node has as many visits as a list has its index, those of the
actions come to the entries that are actions. -/
theorem actionVisits_eq_countP {ids : List Nat}
    (visits : ∀ {id : Nat} {node : Node S α}, tree.nodes[id]? = some node →
      node.visits = ids.count id) : tree.actionVisits = ids.countP tree.isAction := by
  have look : ∀ id node, tree.nodes[id]? = some node →
      (if node.role.isDecision then 0 else node.visits) =
        (ids.filter tree.isAction : Multiset Nat).count id := by
    intro id node found
    have here := isAction_eq found
    rw [Multiset.coe_count]
    cases role : node.role.isDecision with
    | true =>
      rw [if_pos rfl, eq_comm, List.count_eq_zero]
      intro mem
      rw [(List.mem_filter.mp mem).2, role] at here
      cases here
    | false =>
      rw [role] at here
      rw [if_neg Bool.false_ne_true, visits found, List.count_filter here]
  have inside : ∀ id ∈ (ids.filter tree.isAction : Multiset Nat), id ∈ Finset.range tree.size :=
    fun id mem => Finset.mem_range.mpr
      (lt_size_of_isAction (List.mem_filter.mp (Multiset.mem_coe.mp mem)).2)
  rw [actionVisits, map_nodes_eq look, List.countP_eq_length_filter]
  exact Multiset.sum_count_eq_card inside

end Nodes

section Table

variable {α : Type} {mdp : Mdp α} {tree : Tree Nat α} {id : Nat}

/-- How many children a table gives to a node: those of its state or of its
choice if it is expanded, and none otherwise. -/
def fanOut (mdp : Mdp α) (tree : Tree Nat α) (id : Nat) : Nat :=
  match tree.nodes[id]?, tree.stateOf id with
  | some node, .ok (some state) => if node.expanded then mdp.fanOut state node.role else 0
  | _, _ => 0

/-- In a tree that unrolls a table each node has the children that the table gives to it. -/
theorem Faithful.length_kids (faithful : tree.Faithful mdp) (here : id < tree.size) :
    (tree.kids id).length = tree.fanOut mdp id := by
  have layered := faithful.layered
  obtain ⟨node, found⟩ := exists_of_lt here
  obtain ⟨state, owner⟩ := layered.belongs found
  rw [kids_eq found, fanOut, found, owner]
  dsimp only
  split
  · next expanded =>
    obtain ⟨state', specs, owner', told, below⟩ := faithful.unrolled found expanded
    rw [owner, Except.ok.injEq, Option.some.injEq] at owner'
    rw [below.length_eq, Mdp.length_offspring told, owner']
  · next bare =>
    rw [layered.bare found (Bool.not_eq_true _ ▸ bare), List.length_nil]

/-- A tree that unrolls a table has one node more than the table gives to its nodes. -/
theorem Faithful.size_eq_fanOut (faithful : tree.Faithful mdp) :
    tree.size = 1 + ((List.range tree.size).map (tree.fanOut mdp)).sum := by
  have lengths : (List.range tree.size).map (fun id => (tree.kids id).length) =
      (List.range tree.size).map (tree.fanOut mdp) :=
    List.map_congr_left fun id here => faithful.length_kids (List.mem_range.mp here)
  rw [← lengths]
  exact faithful.layered.toLinked.size_eq

end Table

end Tree

end HorizonUct
