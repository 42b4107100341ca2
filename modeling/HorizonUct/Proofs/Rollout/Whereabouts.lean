import HorizonUct.Proofs.Rollout.Unrolling

/-!
# Where in the table a node is

An action of a faithful tree is one of the choices of its state, and a state
below it is one of the outcomes of that choice. So a step down the tree is no
step or one step in the table, and where no outcome leaves the table, no node
does.
-/

namespace HorizonUct

variable {α : Type} {mdp : Mdp α}

/-- That a state has a choice. -/
def Mdp.Offers (mdp : Mdp α) (state : Nat) (choice : Choice α) : Prop :=
  ∃ choices, mdp.states[state]? = some choices ∧ choice ∈ choices

/-- That a choice of a state has an outcome. -/
structure Mdp.Lists (mdp : Mdp α) (state : Nat) (choice : Choice α) (outcome : Outcome α) :
    Prop where
  /-- The choice is one of the state. -/
  chosen : mdp.Offers state choice
  /-- The outcome is one of the choice. -/
  member : outcome ∈ choice.outcomes

/-- A table in which no state is named that is not there. -/
structure Mdp.Closed (mdp : Mdp α) : Prop where
  /-- The initial states are there. -/
  starts : ∀ state ∈ mdp.starts, state < mdp.states.size
  /-- And so is what may follow a state. -/
  targets : ∀ {state : Nat} {choice : Choice α} {outcome : Outcome α},
    mdp.Lists state choice outcome → outcome.target < mdp.states.size

/-- A table that passes the check is closed. -/
theorem Mdp.closed_of_check (checked : mdp.check = .ok ()) : mdp.Closed := by
  rw [check] at checked
  cases strayStart : mdp.starts.find? (mdp.states.size ≤ ·) with
  | some state =>
    rw [strayStart] at checked
    cases checked
  | none =>
    rw [strayStart] at checked
    dsimp only at checked
    split at checked
    · cases checked
    · next strayTarget =>
      refine ⟨fun state h => ?_, fun {state choice outcome} listed => ?_⟩
      · exact Nat.lt_of_not_le fun stray =>
          List.find?_eq_none.mp strayStart state h (decide_eq_true stray)
      · obtain ⟨⟨choices, found, chosen⟩, member⟩ := listed
        have entry : (choices, state) ∈ mdp.states.toList.zipIdx := by
          rw [List.mk_mem_zipIdx_iff_getElem?, Array.getElem?_toList, found]
        have none := List.findSome?_eq_none_iff.mp strayTarget _ entry
        have none := List.findSome?_eq_none_iff.mp (Option.map_eq_none_iff.mp none) choice chosen
        have none := List.find?_eq_none.mp (Option.map_eq_none_iff.mp none) outcome member
        exact Nat.lt_of_not_le fun stray => none (decide_eq_true stray)

namespace Tree

variable {tree : Tree Nat α} {id : Nat} {node : Node Nat α} {state : Nat}

/-- An action is one of the choices of its state. -/
theorem Faithful.listed (faithful : tree.Faithful mdp) (found : tree.nodes[id]? = some node)
    {index : Nat} {label : String} (role : node.role = .chance index label)
    (owner : tree.stateOf id = .ok (some state)) : ∃ choices choice,
      mdp.states[state]? = some choices ∧ choices[index]? = some choice ∧
        choice.action = label := by
  have layered := faithful.layered
  obtain ⟨up, parent, own, hp, hu, hs, owner'⟩ :=
    layered.stateOf_chance found (by rw [role]; rfl)
  rw [owner, Except.ok.injEq, Option.some.injEq] at owner'
  subst owner'
  have below := (layered.toLinked.mem_children hu id).mpr ⟨node, found, hp⟩
  obtain ⟨own, specs, ownerUp, told, children⟩ :=
    faithful.unrolled hu (layered.expanded hu (List.ne_nil_of_mem below))
  rw [stateOf_decision hu hs, Except.ok.injEq, Option.some.injEq] at ownerUp
  rw [hs, Mdp.offspring, ← ownerUp] at told
  obtain ⟨choices, listed, rfl⟩ := Option.map_eq_some_iff.mp told
  obtain ⟨spec, member, entry, found', -, role', -⟩ := Attempt.exists_of_mem_left children below
  obtain ⟨⟨choice, place⟩, placed, rfl⟩ := List.mem_map.mp member
  rw [found, Option.some.injEq] at found'
  rw [← found', role, Role.chance.injEq] at role'
  have placed := List.mk_mem_zipIdx_iff_getElem?.mp placed
  exact ⟨choices, choice, listed, by rw [role'.1, placed], role'.2.symm⟩

/-- A state below an action is one of the outcomes of the choice with its label. -/
theorem Faithful.follows (faithful : tree.Faithful mdp) (found : tree.nodes[id]? = some node)
    {index : Nat} {label : String} (role : node.role = .chance index label)
    (owner : tree.stateOf id = .ok (some state)) {child : Nat} (below : child ∈ node.children) :
    ∃ choice outcome entry, mdp.Lists state choice outcome ∧ choice.action = label ∧
      tree.nodes[child]? = some entry ∧ entry.role = .decision outcome.target := by
  obtain ⟨own, specs, owner', told, children⟩ :=
    faithful.unrolled found (faithful.layered.expanded found (List.ne_nil_of_mem below))
  rw [owner, Except.ok.injEq, Option.some.injEq] at owner'
  rw [role, Mdp.offspring, ← owner'] at told
  obtain ⟨choices, choice, listed, placed, named⟩ := faithful.listed found role owner
  rw [listed, Option.bind_some, placed, Option.map_some, Option.some.injEq] at told
  obtain ⟨spec, given, entry, there, -, role', -⟩ := Attempt.exists_of_mem_left children below
  rw [← told] at given
  obtain ⟨outcome, member, rfl⟩ := List.mem_map.mp given
  exact ⟨choice, outcome, entry, ⟨⟨choices, listed, List.mem_of_getElem? placed⟩, member⟩, named,
    there, role'⟩

/-- A state below an action is one of its outcomes. -/
theorem Faithful.led (faithful : tree.Faithful mdp) (found : tree.nodes[id]? = some node)
    (role : node.role.isDecision = false) (owner : tree.stateOf id = .ok (some state))
    {child : Nat} (below : child ∈ node.children) : ∃ choice outcome entry,
      mdp.Lists state choice outcome ∧ tree.nodes[child]? = some entry ∧
        entry.role = .decision outcome.target := by
  obtain ⟨index, label, role⟩ := Role.eq_chance role
  obtain ⟨choice, outcome, entry, lists, -, there⟩ := faithful.follows found role owner below
  exact ⟨choice, outcome, entry, lists, there⟩

/-- Below an action that is expanded, states are as probable as its outcomes. -/
theorem Faithful.probabilities (faithful : tree.Faithful mdp)
    (found : tree.nodes[id]? = some node) (expanded : node.expanded = true)
    {index : Nat} {label : String} (role : node.role = .chance index label)
    (owner : tree.stateOf id = .ok (some state)) {children : List (Nat × Node Nat α)}
    (looked : tree.children id = .ok children) : ∃ choice, mdp.Offers state choice ∧
      children.map (fun entry => entry.2.reach) =
        choice.outcomes.map fun outcome => some outcome.probability := by
  obtain ⟨own, specs, owner', told, below⟩ := faithful.unrolled found expanded
  rw [owner, Except.ok.injEq, Option.some.injEq] at owner'
  rw [role, Mdp.offspring, ← owner'] at told
  obtain ⟨choice, chosen, rfl⟩ := Option.map_eq_some_iff.mp told
  obtain ⟨choices, listed, placed⟩ := Option.bind_eq_some_iff.mp chosen
  refine ⟨choice, ⟨choices, listed, List.mem_of_getElem? placed⟩, ?_⟩
  rw [← children_fst looked found, List.forall₂_map_left_iff, List.forall₂_map_right_iff] at below
  have entries := (List.forall₂_and_left _ _).mpr
    ⟨fun entry he => getElem?_of_mem_children looked he, below⟩
  refine Attempt.map_eq_map (entries.imp ?_)
  rintro entry outcome ⟨here, child, there, -, -, reach⟩
  rw [here, Option.some.injEq] at there
  rw [there, reach]

/-- An action below a state belongs to it. -/
theorem Layered.stateOf_below (layered : tree.Layered) (found : tree.nodes[id]? = some node)
    (role : node.role = .decision state) {child : Nat} (below : child ∈ node.children) :
    tree.stateOf child = .ok (some state) := by
  obtain ⟨entry, there, hp, -⟩ := layered.toLinked.child found below
  have flips := layered.flips there hp found
  rw [role] at flips
  exact Tree.stateOf_chance there flips hp found role

/-- In a closed table every state of a faithful tree is there if the root is. -/
theorem Faithful.inside (faithful : tree.Faithful mdp) (closed : mdp.Closed) {root : Nat}
    (planted : tree.root.role = .decision root) (here : root < mdp.states.size)
    (found : tree.nodes[id]? = some node) (role : node.role = .decision state) :
    state < mdp.states.size := by
  have layered := faithful.layered
  rcases Nat.eq_zero_or_pos id with rfl | later
  · rw [getElem?_root, Option.some.injEq] at found
    rw [found, role, Role.decision.injEq] at planted
    rw [planted]
    exact here
  · obtain ⟨up, parent, -, hp, hu, below⟩ := layered.toLinked.parent found later
    have chance : parent.role.isDecision = false := by
      have flips := layered.flips found hp hu
      rw [role] at flips
      exact (Bool.not_eq_true' _).mp flips.symm
    obtain ⟨-, -, own, -, -, -, owner⟩ := layered.stateOf_chance hu chance
    obtain ⟨choice, outcome, entry, listed, there, role'⟩ := faithful.led hu chance owner below
    rw [found, Option.some.injEq] at there
    rw [← there, role, Role.decision.injEq] at role'
    rw [role']
    exact closed.targets listed

end Tree

end HorizonUct
