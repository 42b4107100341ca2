import HorizonUct.Proofs.Fork
import HorizonUct.Proofs.Mdp.Cursor
import HorizonUct.Proofs.Rollout.Record

/-!
# Trees unroll the table

A node for an action has no state of its own, and it is expanded from whatever
state the cursor stands on. Since that is always the state above the node, a
tree grown by rollouts is the table unrolled from its root, as far as nodes
have been expanded, and no rollout that broke off has left it otherwise.
-/

namespace HorizonUct

namespace Tree

variable {α : Type}

/-- The children of a node are those that the table gives it. -/
def Unrolled (mdp : Mdp α) (tree : Tree Nat α) (id : Nat) (node : Node Nat α) : Prop :=
  ∃ state specs, tree.stateOf id = .ok (some state) ∧ mdp.offspring state node.role = some specs ∧
    List.Forall₂ (fun child spec => ∃ below : Node Nat α, tree.nodes[child]? = some below ∧
      below.parent = some id ∧ below.role = spec.1 ∧ below.reach = spec.2) node.children specs

/-- As a tree grows, what has been unrolled stays so. -/
theorem Unrolled.extends {mdp : Mdp α} {old new : Tree Nat α} {id : Nat} {before after : Node Nat α}
    (unrolled : old.Unrolled mdp id before) (h : old.Extends new) (kept : Kept before after)
    (expanded : before.expanded = true) : new.Unrolled mdp id after := by
  obtain ⟨state, specs, owner, told, below⟩ := unrolled
  refine ⟨state, specs, h.stateOf owner, by rw [kept.role, told], ?_⟩
  rw [kept.children expanded]
  refine below.imp ?_
  rintro child spec ⟨node, found, parent, role, reach⟩
  obtain ⟨node', found', kept'⟩ := h found
  exact ⟨node', found', kept'.parent.trans parent, kept'.role.trans role, kept'.reach.trans reach⟩

/-- A layered tree of which every expanded node is unrolled. -/
structure Faithful (mdp : Mdp α) (tree : Tree Nat α) : Prop where
  /-- States and actions alternate. -/
  layered : tree.Layered
  /-- Children are those of the table. -/
  unrolled : ∀ {id : Nat} {node : Node Nat α}, tree.nodes[id]? = some node →
    node.expanded = true → tree.Unrolled mdp id node

/-- In a tree that unrolls a table an expanded state without actions has no choices. -/
theorem Faithful.deadlock {mdp : Mdp α} {tree : Tree Nat α} {id state : Nat} {node : Node Nat α}
    (faithful : tree.Faithful mdp) (found : tree.nodes[id]? = some node)
    (role : node.role = .decision state) (expanded : node.expanded = true)
    (bare : node.children = []) : mdp.states[state]? = some [] := by
  obtain ⟨own, specs, owner, told, kids⟩ := faithful.unrolled found expanded
  rw [stateOf_decision found role, Except.ok.injEq, Option.some.injEq] at owner
  rw [role, Mdp.offspring, ← owner] at told
  obtain ⟨choices, listed, rfl⟩ := Option.map_eq_some_iff.mp told
  have length := kids.length_eq
  rw [bare, List.length_nil, List.length_map, List.length_zipIdx] at length
  rw [listed, List.length_eq_zero_iff.mp length.symm]

/-- In a tree that unrolls a table an action of a state is that of the choice in
its place, and once it is expanded its outcomes are those of the choice, in order. -/
theorem Faithful.action {mdp : Mdp α} {tree : Tree Nat α} {id child state : Nat}
    {node action : Node Nat α} {outcomes : List (Nat × Node Nat α)} (faithful : tree.Faithful mdp)
    (found : tree.nodes[id]? = some node) (role : node.role = .decision state)
    (below : child ∈ node.children) (there : tree.nodes[child]? = some action)
    (expanded : action.expanded = true) (looked : tree.children child = .ok outcomes) :
    ∃ choices place choice, mdp.states[state]? = some choices ∧ choices[place]? = some choice ∧
      node.children[place]? = some child ∧ action.role = .chance place choice.action ∧
        List.Forall₂ (fun entry outcome => tree.nodes[entry.1]? = some entry.2 ∧
          entry.2.role = .decision outcome.target ∧
            entry.2.reach = some outcome.probability) outcomes choice.outcomes := by
  have layered := faithful.layered
  -- the state has an action for each choice
  obtain ⟨own, specs, owner, told, kids⟩ :=
    faithful.unrolled found (layered.expanded found (List.ne_nil_of_mem below))
  rw [stateOf_decision found role, Except.ok.injEq, Option.some.injEq] at owner
  rw [role, Mdp.offspring, ← owner] at told
  obtain ⟨choices, listed, rfl⟩ := Option.map_eq_some_iff.mp told
  obtain ⟨place, named⟩ := List.mem_iff_getElem?.mp below
  obtain ⟨spec, given, action', there', parent, chance, -⟩ :=
    Attempt.exists_of_getElem?_left kids named
  rw [there, Option.some.injEq] at there'
  subst there'
  rw [List.getElem?_map, List.getElem?_zipIdx, Nat.zero_add] at given
  obtain ⟨entry, hc, rfl⟩ := Option.map_eq_some_iff.mp given
  obtain ⟨choice, placed, rfl⟩ := Option.map_eq_some_iff.mp hc
  -- and the action has a state for each outcome of that choice
  obtain ⟨own', specs', owner', told', kids'⟩ := faithful.unrolled there expanded
  rw [stateOf_chance there (by rw [chance]; rfl) parent found role, Except.ok.injEq,
    Option.some.injEq] at owner'
  rw [chance, Mdp.offspring, ← owner', listed, Option.bind_some, placed, Option.map_some,
    Option.some.injEq] at told'
  rw [← told', ← children_fst looked there, List.forall₂_map_left_iff,
    List.forall₂_map_right_iff] at kids'
  refine ⟨choices, place, choice, listed, placed, named, chance, ?_⟩
  refine ((List.forall₂_and_left _ _).mpr
    ⟨fun entry he => getElem?_of_mem_children looked he, kids'⟩).imp ?_
  rintro entry outcome ⟨here, below, here', -, role, reach⟩
  rw [here, Option.some.injEq] at here'
  exact ⟨here, here' ▸ role, here' ▸ reach⟩

variable [Scalar α]

/-- A node that adopts what a cursor tells in its state is unrolled. -/
theorem unrolled_adopt {mdp : Mdp α} {tree : Tree Nat α} {id : Nat} {node : Node Nat α}
    {children : List (Node Nat α)} (found : tree.nodes[id]? = some node) (bare : node.children = [])
    (h : tree.Extends (tree.adopt id children))
    (told : Told (Cursor.StandsOn mdp) tree id children) :
    (tree.adopt id children).Unrolled mdp id { node with
      children := node.children ++ List.range' tree.size children.length
      expanded := true } := by
  obtain ⟨cursor, node', state, stands, found', owner, asked⟩ := told
  rw [found, Option.some.injEq] at found'
  subst found'
  obtain ⟨specs, given, rfl⟩ := stands.offspring asked
  refine ⟨state, specs, h.stateOf owner, given, ?_⟩
  rw [bare, List.nil_append, List.length_map, List.forall₂_iff_get]
  refine ⟨List.length_range', fun place _ hp => ?_⟩
  have child : (specs.map fun spec : Role Nat × Option α => Node.fresh spec.1 spec.2)[place]? =
      some (Node.fresh specs[place].1 specs[place].2) := by
    rw [List.getElem?_map, List.getElem?_eq_getElem hp, Option.map_some]
  rw [List.get_eq_getElem, List.getElem_range', Nat.one_mul]
  exact ⟨_, adopt_new (lt_size found) child, rfl, rfl, rfl⟩

/-- Steps of growing by what a cursor tells keep a tree faithful. -/
theorem Step.faithful {mdp : Mdp α} {old new : Tree Nat α}
    (step : Step (Told (Cursor.StandsOn mdp)) old new) (before : old.Faithful mdp) :
    new.Faithful mdp := by
  refine ⟨step.layered before.layered, ?_⟩
  intro id node found expanded
  have grown := step.extends
  -- a node that was there and expanded before has only to be carried along
  have carry : ∀ {old' : Node Nat α}, old.nodes[id]? = some old' → old'.expanded = true →
      new.Unrolled mdp id node := by
    intro old' ho he
    obtain ⟨after, ha, kept⟩ := grown ho
    rw [found, Option.some.injEq] at ha
    exact (before.unrolled ho he).extends grown (ha ▸ kept) he
  cases step with
  | @revise other change alike =>
    obtain ⟨old', ho, rfl⟩ := modify_cases found
    refine carry ho ?_
    split at expanded
    · rw [← (alike old').expanded, expanded]
    · exact expanded
  | @adopt adopter bare' children here bare blank flips given =>
    rcases adopt_cases (lt_size here) found with ⟨k, child, hk, -, rfl⟩ | ⟨old', ho, hf⟩
    · have fresh := (blank child (List.mem_of_getElem? hk)).expanded
      rw [fresh] at expanded
      cases expanded
    · by_cases he : adopter = id
      · rw [if_pos he] at hf
        subst he hf
        rw [here, Option.some.injEq] at ho
        subst ho
        exact unrolled_adopt here (before.layered.bare here bare) grown given
      · rw [if_neg he] at hf
        rw [hf] at expanded
        exact carry ho expanded

/-- A tree that unrolls a table from a state, as far as its nodes are expanded. -/
structure Unrolls (mdp : Mdp α) (state : Nat) (tree : Tree Nat α) : Prop where
  /-- The root stands for the state, with nothing above it. -/
  root : tree.root.role = .decision state ∧ tree.root.parent = none ∧ tree.root.reach = none
  /-- A state has an action for each of its choices, in order. -/
  choices : ∀ {id : Nat} {node : Node Nat α} {own : Nat}, tree.nodes[id]? = some node →
    node.expanded = true → node.role = .decision own →
      ∃ choices, mdp.states[own]? = some choices ∧
        List.Forall₂ (fun child entry => ∃ below : Node Nat α, tree.nodes[child]? = some below ∧
          below.parent = some id ∧ below.role = .chance entry.2 entry.1.action ∧
            below.reach = none) node.children choices.zipIdx
  /-- An action has a state for each outcome of its choice in the state above it, in order. -/
  outcomes : ∀ {id : Nat} {node : Node Nat α} {index : Nat} {label : String},
    tree.nodes[id]? = some node → node.expanded = true → node.role = .chance index label →
      ∃ up parent own choices choice, node.parent = some up ∧ tree.nodes[up]? = some parent ∧
        parent.role = .decision own ∧ mdp.states[own]? = some choices ∧
          choices[index]? = some choice ∧
            List.Forall₂ (fun child outcome => ∃ below : Node Nat α,
              tree.nodes[child]? = some below ∧ below.parent = some id ∧
                below.role = .decision outcome.target ∧ below.reach = some outcome.probability)
              node.children choice.outcomes
  /-- A node that is not expanded has no children and no visits. -/
  idle : ∀ {id : Nat} {node : Node Nat α}, tree.nodes[id]? = some node → node.expanded = false →
    node.children = [] ∧ node.visits = 0

variable {mdp : Mdp α} {tree : Tree Nat α} {state : Nat}
variable {outcomes : List (Except (Failure α) (Rollout α))}

/-- A root alone is faithful to any table. -/
theorem faithful_ofRoot (mdp : Mdp α) (state : Nat) : (ofRoot state : Tree Nat α).Faithful mdp := by
  refine ⟨layered_ofRoot state, fun {id node} found expanded => ?_⟩
  rw [(getElem?_ofRoot found).2] at expanded
  cases expanded

/-- A tree that was grown over a table is faithful to it. -/
theorem Grown.faithful
    (grown : Grown (fun cursor : Cursor α => cursor.mdp = mdp) state outcomes tree) :
    tree.Faithful mdp :=
  (grown.steps (Cursor.tracks mdp)).preserve Step.faithful (faithful_ofRoot mdp state)

/-- However rollouts over a table start and end, wherever the cursor was left
by the one before, the tree unrolls the table from its root. -/
theorem unrolls_of_grown
    (grown : Grown (fun cursor : Cursor α => cursor.mdp = mdp) state outcomes tree) :
    tree.Unrolls mdp state := by
  have faithful := grown.faithful
  refine ⟨?_, ?_, ?_, ?_⟩
  · have first : (ofRoot state : Tree Nat α).nodes[0]? = some (.decision state none) := rfl
    obtain ⟨root, found, kept⟩ := (grown.steps (Cursor.tracks mdp)).extends first
    rw [getElem?_root, Option.some.injEq] at found
    rw [found]
    exact ⟨kept.role, kept.parent, kept.reach⟩
  · intro id node own found expanded role
    obtain ⟨state, specs, owner, told, below⟩ := faithful.unrolled found expanded
    rw [stateOf_decision found role, Except.ok.injEq, Option.some.injEq] at owner
    rw [role, Mdp.offspring, ← owner] at told
    obtain ⟨choices, hc, rfl⟩ := Option.map_eq_some_iff.mp told
    exact ⟨choices, hc, List.forall₂_map_right_iff.mp below⟩
  · intro id node index label found expanded role
    obtain ⟨state, specs, owner, told, below⟩ := faithful.unrolled found expanded
    obtain ⟨up, parent, own, hp, hu, hs, owner'⟩ :=
      faithful.layered.stateOf_chance found (by rw [role]; rfl)
    rw [owner', Except.ok.injEq, Option.some.injEq] at owner
    rw [role, Mdp.offspring, ← owner] at told
    obtain ⟨choice, hc, rfl⟩ := Option.map_eq_some_iff.mp told
    obtain ⟨choices, hcs, hc⟩ := Option.bind_eq_some_iff.mp hc
    exact ⟨up, parent, own, choices, choice, hp, hu, hs, hcs, hc,
      List.forall₂_map_right_iff.mp below⟩
  · intro id node found bare
    exact ⟨faithful.layered.bare found bare, grown.unvisited found bare⟩

end Tree

/-- Three rollouts, the last of which starts at an action after one has broken
off elsewhere, leave a tree that unrolls the table. -/
theorem Fork.unrolls_of_short_long_side :
    (short.1.isOk = true ∧ long.1.isOk = false ∧ side.1.isOk = true) ∧
      side.2.tree.Unrolls table 0 := by
  exact ⟨by decide +kernel, Tree.unrolls_of_grown grown_short_long_side⟩

end HorizonUct
