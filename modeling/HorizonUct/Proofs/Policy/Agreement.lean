import HorizonUct.Proofs.Policy.Breadth
import HorizonUct.Proofs.Policy.Walk

/-!
# Walks and chains agree

A greedy walk takes the favourite at states and at actions alike; a chain takes
the favourite at states and keeps all outcomes. So the walk is one way through
the chain: its states are the situations along a path from the start, and where
it takes an action, that is the action of the situation. It comes to rest in a
state exactly where nothing follows in the chain.
-/

namespace HorizonUct

variable {S α : Type}

namespace Chain

/-- The stops of a walk and the situations on a path, side by side from a
situation on. -/
inductive Along (tree : Tree S α) (chain : Chain S α) :
    Nat → List (Stop S α) → Nat → List Nat → Prop where
  /-- The walk comes to rest in a state. -/
  | rest {index : Nat} {here : Situation S} {node : Node S α}
      (present : chain.situations[index]? = some here)
      (found : tree.nodes[here.node]? = some node) (role : node.role = .decision here.state)
      (taken : here.action = none) (empty : chain.rows[index]? = some []) :
      Along tree chain index [node.stop here.node] here.node [index]
  /-- The walk takes an action and ends there. -/
  | act {index best place : Nat} {label : String} {here : Situation S} {node action : Node S α}
      (present : chain.situations[index]? = some here)
      (found : tree.nodes[here.node]? = some node) (role : node.role = .decision here.state)
      (there : tree.nodes[best]? = some action) (chance : action.role = .chance place label)
      (taken : here.action = some label) :
      Along tree chain index [node.stop here.node, action.stop best] best [index]
  /-- The walk takes an action and goes on to an outcome. -/
  | onward {index best place target last : Nat} {label : String} {probability : α}
      {here : Situation S} {node action : Node S α} {stops : List (Stop S α)} {path : List Nat}
      (present : chain.situations[index]? = some here)
      (found : tree.nodes[here.node]? = some node) (role : node.role = .decision here.state)
      (there : tree.nodes[best]? = some action) (chance : action.role = .chance place label)
      (taken : here.action = some label)
      (transition : (index, target, probability) ∈ chain.transitions)
      (rest : Along tree chain target stops last path) :
      Along tree chain index (node.stop here.node :: action.stop best :: stops) last
        (index :: path)

variable {tree : Tree S α} {chain : Chain S α} {index last : Nat} {stops : List (Stop S α)}
variable {path : List Nat}

/-- The path starts in the situation. -/
theorem Along.path_eq (along : Along tree chain index stops last path) :
    ∃ later, path = index :: later := by
  cases along <;> exact ⟨_, rfl⟩

/-- Each step of the path is a transition. -/
theorem Along.steps (along : Along tree chain index stops last path) :
    path.IsChain fun source target =>
      ∃ probability, (source, target, probability) ∈ chain.transitions := by
  induction along with
  | rest | act => exact .singleton _
  | onward _ _ _ _ _ _ transition rest ih =>
    obtain ⟨later, rfl⟩ := rest.path_eq
    exact .cons_cons ⟨_, transition⟩ ih

/-- A stop at a state has that state and no action. -/
theorem stop_of_decision {node : Node S α} {state : S} (role : node.role = .decision state)
    (id : Nat) : (node.stop id).state = some state ∧ (node.stop id).action = none := by
  rw [Node.stop, role]
  exact ⟨rfl, rfl⟩

/-- A stop at an action has its label and no state. -/
theorem stop_of_chance {node : Node S α} {place : Nat} {label : String}
    (role : node.role = .chance place label) (id : Nat) :
    (node.stop id).state = none ∧ (node.stop id).action = some label := by
  rw [Node.stop, role]
  exact ⟨rfl, rfl⟩

/-- A situation stands for a stop at a state. -/
def StandsFor (chain : Chain S α) (index : Nat) (stop : Stop S α) : Prop :=
  ∃ here, chain.situations[index]? = some here ∧ here.node = stop.node ∧
    stop.state = some here.state ∧ stop.action = none

/-- The action of a situation is taken at a stop. -/
def TakesAt (chain : Chain S α) (index : Nat) (stop : Stop S α) : Prop :=
  ∃ here label, chain.situations[index]? = some here ∧ here.action = some label ∧
    stop.action = some label ∧ stop.state = none

/-- Every other stop of the walk is a state on the path, from the first on, and
the stop after it is its action. -/
theorem Along.turns (along : Along tree chain index stops last path) {turn : Nat}
    {stop : Stop S α} :
    (stops[2 * turn]? = some stop → ∃ here, path[turn]? = some here ∧ chain.StandsFor here stop) ∧
      (stops[2 * turn + 1]? = some stop →
        ∃ here, path[turn]? = some here ∧ chain.TakesAt here stop) := by
  induction along generalizing turn with
  | rest present _ role =>
    cases turn with
    | zero =>
      refine ⟨fun h => ⟨_, rfl, _, present, ?_⟩, nofun⟩
      obtain rfl := Option.some.inj h
      exact ⟨rfl, stop_of_decision role _⟩
    | succ turn => exact ⟨nofun, nofun⟩
  | act present _ role _ chance taken =>
    cases turn with
    | zero =>
      refine ⟨fun h => ⟨_, rfl, _, present, ?_⟩, fun h => ⟨_, rfl, _, _, present, taken, ?_⟩⟩
      · obtain rfl := Option.some.inj h
        exact ⟨rfl, stop_of_decision role _⟩
      · obtain rfl := Option.some.inj h
        exact (stop_of_chance chance _).symm
    | succ turn => exact ⟨nofun, nofun⟩
  | onward present _ role _ chance taken _ _ ih =>
    cases turn with
    | zero =>
      refine ⟨fun h => ⟨_, rfl, _, present, ?_⟩, fun h => ⟨_, rfl, _, _, present, taken, ?_⟩⟩
      · obtain rfl := Option.some.inj h
        exact ⟨rfl, stop_of_decision role _⟩
      · obtain rfl := Option.some.inj h
        exact (stop_of_chance chance _).symm
    | succ turn => exact ih

/-- The states of the walk are those of the situations on the path. -/
theorem Along.states (along : Along tree chain index stops last path) :
    List.Forall₂ (fun place state => ∃ here, chain.situations[place]? = some here ∧
      here.state = state) path (stops.filterMap (·.state)) := by
  induction along with
  | rest present _ role =>
    rw [List.filterMap_cons, (stop_of_decision role _).1]
    exact .cons ⟨_, present, rfl⟩ .nil
  | act present _ role _ chance =>
    rw [List.filterMap_cons, (stop_of_decision role _).1, List.filterMap_cons,
      (stop_of_chance chance _).1]
    exact .cons ⟨_, present, rfl⟩ .nil
  | onward present _ role _ chance _ _ _ ih =>
    rw [List.filterMap_cons, (stop_of_decision role _).1, List.filterMap_cons,
      (stop_of_chance chance _).1]
    exact .cons ⟨_, present, rfl⟩ ih

/-- The actions of the walk are those of the situations on the path. -/
theorem Along.actions (along : Along tree chain index stops last path) {turn : Nat}
    {label : String} (h : (stops.filterMap (·.action))[turn]? = some label) :
    ∃ place here, path[turn]? = some place ∧ chain.situations[place]? = some here ∧
      here.action = some label := by
  induction along generalizing turn with
  | rest _ _ role =>
    rw [List.filterMap_cons, (stop_of_decision role _).2] at h
    cases h
  | act present _ role _ chance taken =>
    rw [List.filterMap_cons, (stop_of_decision role _).2, List.filterMap_cons,
      (stop_of_chance chance _).2] at h
    cases turn with
    | zero => exact ⟨_, _, rfl, present, taken.trans h⟩
    | succ turn => cases h
  | onward present _ role _ chance taken _ _ ih =>
    rw [List.filterMap_cons, (stop_of_decision role _).2, List.filterMap_cons,
      (stop_of_chance chance _).2] at h
    cases turn with
    | zero => exact ⟨_, _, rfl, present, taken.trans h⟩
    | succ turn => exact ih h

/-- Where the walk ends, the path does: in a situation that nothing follows, or
in one with the action at which the walk ends. -/
theorem Along.ends (along : Along tree chain index stops last path) :
    ∃ place here node, path.getLast? = some place ∧ chain.situations[place]? = some here ∧
      tree.nodes[last]? = some node ∧
        ((node.role = .decision here.state ∧ here.node = last ∧ here.action = none ∧
            chain.rows[place]? = some []) ∨
          ∃ choice label, node.role = .chance choice label ∧ here.action = some label) := by
  induction along with
  | rest present found role taken empty =>
    exact ⟨_, _, _, rfl, present, found, .inl ⟨role, rfl, taken, empty⟩⟩
  | act present _ _ there chance taken =>
    exact ⟨_, _, _, rfl, present, there, .inr ⟨_, _, chance, taken⟩⟩
  | onward _ _ _ _ _ _ _ rest ih =>
    obtain ⟨later, rfl⟩ := rest.path_eq
    rw [List.getLast?_cons_cons]
    exact ih

section Advice

variable [Scalar α] {here : Situation S}

/-- From a situation there is a transition to each outcome of its favourite action. -/
theorem exists_transition (branching : tree.Branching) (traces : Traces tree chain)
    (follows : Follows tree chain) (whole : chain.rows.size = chain.size)
    (present : chain.situations[index]? = some here) {best next : Nat} {action : Node S α}
    (favoured : tree.favourite here.node = .ok (some best))
    (there : tree.nodes[best]? = some action) (below : next ∈ action.children) :
    ∃ target probability after, (index, target, probability) ∈ chain.transitions ∧
      chain.situations[target]? = some after ∧ after.node = next := by
  obtain ⟨row, listed⟩ := exists_row whole present
  obtain ⟨node, found, role⟩ := traces.decisions present
  have decision : node.role.isDecision = true := by rw [role]; rfl
  obtain ⟨action', place, label, outcomes, -, there', -, -, chance, looked⟩ :=
    branching.favourite found decision favoured
  have leads := follows.row_of_favourite listed present favoured found role there' chance looked
  rw [← Tree.children_fst looked there] at below
  obtain ⟨entry, mem, rfl⟩ := List.mem_map.mp below
  obtain ⟨⟨target, probability⟩, stays, -, -, after, present', same⟩ :=
    Attempt.exists_of_mem_right leads mem
  exact ⟨target, probability, after, mem_transitions.mpr ⟨_, listed, stays⟩, present', same⟩

/-- A walk from the node of a situation goes along the chain from there. -/
theorem along_of_walk (branching : tree.Branching) (traces : Traces tree chain)
    (follows : Follows tree chain) (whole : chain.rows.size = chain.size) {bound : Nat}
    {walk : Walk S α} (present : chain.situations[index]? = some here)
    (walked : tree.walkWithin bound here.node = .ok walk) :
    ∃ path, Along tree chain index walk.stops walk.last path := by
  induction bound using Nat.strongRecOn generalizing index here walk with
  | ind bound ih =>
    obtain ⟨row, listed⟩ := exists_row whole present
    have told := traces.advised_at present listed
    obtain ⟨node, found, role⟩ := traces.decisions present
    obtain ⟨node', found', way⟩ := Tree.walkWithin_eq_ok walked
    rw [found, Option.some.injEq] at found'
    subst found'
    rcases way with ⟨favoured, rfl⟩ | ⟨best, fewer, rest, favoured, less, onward, rfl⟩
    · cases told with
      | nothing _ taken empty =>
        rw [empty] at listed
        exact ⟨_, .rest present found role taken listed⟩
      | favourite favoured' =>
        rw [favoured] at favoured'
        cases favoured'
    · cases told with
      | nothing favoured' =>
        rw [favoured] at favoured'
        cases favoured'
      | favourite favoured' there _ _ chance taken _ _ _ =>
        rw [favoured, Except.ok.injEq, Option.some.injEq] at favoured'
        subst favoured'
        obtain ⟨action, there', way⟩ := Tree.walkWithin_eq_ok onward
        rw [there, Option.some.injEq] at there'
        subst there'
        rcases way with ⟨-, rfl⟩ | ⟨next, fewer', rest, favoured', less', onward', rfl⟩
        · exact ⟨_, .act present found role there chance taken⟩
        · -- two moves on the walk are one transition
          have below := (Tree.favourite_eq_some favoured' there).1
          obtain ⟨target, probability, after, transition, present', rfl⟩ :=
            exists_transition branching traces follows whole present favoured there below
          obtain ⟨path, along⟩ := ih fewer' (less'.trans less) present' onward'
          exact ⟨_, .onward present found role there chance taken transition along⟩

end Advice

/-- A walk that goes along a path through a chain. -/
structure Carries (tree : Tree S α) (chain : Chain S α) (walk : Walk S α) (path : List Nat) :
    Prop where
  /-- The path starts where the chain does. -/
  start : path.head? = some chain.start
  /-- Each step of the path is a transition. -/
  steps : path.IsChain fun source target =>
    ∃ probability, (source, target, probability) ∈ chain.transitions
  /-- The stops of the walk are in turn a state, which the situation on the path stands
  for, and the action of that situation. -/
  turns : ∀ {turn : Nat} {stop : Stop S α},
    (walk.stops[2 * turn]? = some stop →
      ∃ here, path[turn]? = some here ∧ chain.StandsFor here stop) ∧
    (walk.stops[2 * turn + 1]? = some stop →
      ∃ here, path[turn]? = some here ∧ chain.TakesAt here stop)
  /-- The path has no situations besides, and they have the states of the walk. -/
  states : List.Forall₂ (fun place state => ∃ here, chain.situations[place]? = some here ∧
    here.state = state) path walk.states
  /-- They have the actions of the walk. -/
  actions : ∀ {turn : Nat} {label : String}, walk.actions[turn]? = some label →
    ∃ place here, path[turn]? = some place ∧ chain.situations[place]? = some here ∧
      here.action = some label
  /-- Where the walk ends the path does: nothing follows a state, and an action is that
  of the last situation. -/
  ends : ∃ place here node, path.getLast? = some place ∧ chain.situations[place]? = some here ∧
    tree.nodes[walk.last]? = some node ∧
      ((node.role = .decision here.state ∧ here.node = walk.last ∧ here.action = none ∧
          chain.rows[place]? = some []) ∨
        ∃ choice label, node.role = .chance choice label ∧ here.action = some label)

/-- In every tree that rollouts can have grown, the greedy walk from the root
goes along a path through the chain of the tree, from its start. -/
theorem carries_of_grown {σ : Type} [Navigator σ S α] [Scalar α] {kind : σ → Prop} {root : S}
    {outcomes : List (Except (Failure α) (Rollout α))} {tree : Tree S α}
    (grown : Tree.Grown kind root outcomes tree) :
    ∃ walk chain path, tree.walkFrom 0 = .ok walk ∧ ofTree tree = .ok chain ∧
      Carries tree chain walk path := by
  have branching := grown.layered.branching
  obtain ⟨chain, unrolled, traces, whole⟩ := ofTree_of_branching branching
  have follows := follows_of_branching branching unrolled
  obtain ⟨walk, -, walked, -⟩ := grown.layered.toLinked.walk_ok
  obtain ⟨first, present, node⟩ := traces.root
  have moves : tree.walkWithin tree.size first.node = .ok walk := by
    rw [node]
    exact walked
  obtain ⟨path, along⟩ := along_of_walk branching traces follows whole present moves
  obtain ⟨later, starts⟩ := along.path_eq
  refine ⟨walk, chain, path, walked, unrolled, ?_, along.steps, along.turns, along.states,
    along.actions, along.ends⟩
  rw [starts, traces.start]
  rfl

end Chain

/-- After three rollouts, one of which broke off, the walk takes two actions, and
so does a path through the chain. -/
theorem Fork.carries_short_long_side : ∃ walk chain path, side.2.tree.walkFrom 0 = .ok walk ∧
    Chain.ofTree side.2.tree = .ok chain ∧ chain.Carries side.2.tree walk path ∧
      walk.actions = ["toss", "stray"] ∧ path.length = 2 := by
  obtain ⟨walk, chain, path, walked, unrolled, carries⟩ :=
    Chain.carries_of_grown grown_short_long_side
  have taken : ((side.2.tree.walkFrom 0).toOption.map fun walk =>
      (walk.actions, walk.states.length)) = some (["toss", "stray"], 2) := by
    decide +kernel
  rw [walked] at taken
  obtain ⟨actions, states⟩ := Prod.mk.inj (Option.some.inj taken)
  exact ⟨walk, chain, path, walked, unrolled, carries, actions,
    carries.states.length_eq.trans states⟩

end HorizonUct
