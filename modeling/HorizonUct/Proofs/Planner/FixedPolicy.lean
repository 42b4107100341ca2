import HorizonUct.Proofs.Doubles
import HorizonUct.Proofs.Planner.Appraisal
import HorizonUct.Proofs.Planner.Isolation
import HorizonUct.Proofs.Policy.Recursion
import HorizonUct.Proofs.Rollout.Unrolling
import HorizonUct.Proofs.Tree.Favourite

/-!
# The chain of a search is the process under its policy

Where every state has one choice a process is a Markov chain. The chain of a
search over a table is that of the table once each state has been given the
choice that paid best: each situation plays out that choice, with all of its
outcomes, whether they were visited or not. It does so unless its node was not
visited or its state is a deadlock; then it stays as it is.
-/

namespace HorizonUct

namespace Chain

section Realization

variable {α : Type} [Scalar α]

/-- A situation plays out a choice of its state, for which an action below its
node stands: it takes the action and may be followed by all outcomes. -/
structure PlaysOut (mdp : Mdp α) (tree : Tree Nat α) (chain : Chain Nat α) (here : Situation Nat)
    (node : Node Nat α) (row : List (Nat × α)) (place : Nat) (choice : Choice α)
    (action : Node Nat α) : Prop where
  /-- The choice has this place among those of the state. -/
  listed : ∃ choices, mdp.states[here.state]? = some choices ∧ choices[place]? = some choice
  /-- The action has the same place below the node. -/
  named : ∃ id, node.children[place]? = some id ∧ tree.nodes[id]? = some action ∧
    action.role = .chance place choice.action
  /-- It is what the situation takes. -/
  taken : here.action = some choice.action
  /-- It was visited. -/
  visited : 0 < action.visits
  /-- If the means of the visited actions below the node are numbers, then none
  of them exceeds that of this one. -/
  best : (∀ other ∈ node.children, ∀ beside, tree.nodes[other]? = some beside →
      0 < beside.visits → Scalar.isUndefined beside.mean = false) →
    ∀ other ∈ node.children, ∀ beside, tree.nodes[other]? = some beside → 0 < beside.visits →
      Scalar.lt action.mean beside.mean = false
  /-- The row has a transition for each outcome, in order. -/
  row : List.Forall₂ (fun transition outcome => transition.2 = outcome.probability ∧
    ∃ there, chain.situations[transition.1]? = some there ∧ there.state = outcome.target)
      row choice.outcomes

/-- A situation does what a table says under the policy of a tree. -/
structure Obeys (mdp : Mdp α) (tree : Tree Nat α) (chain : Chain Nat α) (here : Situation Nat)
    (node : Node Nat α) (row : List (Nat × α)) : Prop where
  /-- No action is taken exactly if nothing follows. -/
  taken_iff : here.action = none ↔ row = []
  /-- Nothing follows exactly if the node was not visited or the state has no choices. -/
  empty_iff : row = [] ↔ node.visits = 0 ∨ mdp.states[here.state]? = some []
  /-- Otherwise a choice of the state is played out. -/
  choice : here.action ≠ none → ∃ place choice action,
    PlaysOut mdp tree chain here node row place choice action

/-- A chain that is a table under the policy of a tree. -/
structure Realizes (mdp : Mdp α) (tree : Tree Nat α) (chain : Chain Nat α) : Prop where
  /-- It starts in the first situation, which is that of the one initial state. -/
  start : ∃ state here, mdp.starts = [state] ∧ chain.start = 0 ∧
    chain.situations[0]? = some here ∧ here.state = state
  /-- Each situation stands for a node with its state and has a row, and does
  there what the table says. -/
  each : ∀ {index : Nat} {here : Situation Nat}, chain.situations[index]? = some here →
    ∃ node row, tree.nodes[here.node]? = some node ∧ node.role = .decision here.state ∧
      chain.rows[index]? = some row ∧ Obeys mdp tree chain here node row

end Realization

section Explored

variable {α : Type} [Scalar α] {mdp : Mdp α} {root horizon index : Nat} {rules : Rules Nat α}
variable {rollouts : List (Rollout α)} {tree : Tree Nat α} {chain : Chain Nat α}
variable {here : Situation Nat} {node : Node Nat α} {row : List (Nat × α)}

/-- A row leads to the outcomes of the choice whose outcomes stand below the favourite. -/
theorem outcomes_of_row (traces : Traces tree chain) {outcomes : List (Nat × Node Nat α)}
    {choice : Choice α} (leads : List.Forall₂ (chain.LeadsTo index) row outcomes)
    (below : List.Forall₂ (fun entry outcome => tree.nodes[entry.1]? = some entry.2 ∧
      entry.2.role = .decision outcome.target ∧ entry.2.reach = some outcome.probability)
        outcomes choice.outcomes) :
    List.Forall₂ (fun transition outcome => transition.2 = outcome.probability ∧
      ∃ there, chain.situations[transition.1]? = some there ∧ there.state = outcome.target)
        row choice.outcomes := by
  refine Attempt.forall₂_join leads.flip below ?_
  rintro entry transition outcome ⟨-, probability, there, present, same⟩ ⟨found, role, reach⟩
  rw [reach, Option.getD_some] at probability
  refine ⟨probability, there, present, ?_⟩
  -- the node of the target has its state, and it is that of the outcome
  obtain ⟨node, found', role'⟩ := traces.decisions present
  rw [same, found, Option.some.injEq] at found'
  rw [← found', role] at role'
  exact (Role.decision.inj role').symm

/-- Without a favourite the node was not visited, or the state has no choices. -/
theorem rests_of_unfavoured
    (explored : tree.Explored (fun cursor : Cursor α => cursor.mdp = mdp) root rules horizon
      rollouts)
    (found : tree.nodes[here.node]? = some node) (role : node.role = .decision here.state)
    (favoured : tree.favourite here.node = .ok none) :
    node.visits = 0 ∨ mdp.states[here.state]? = some [] := by
  rcases Nat.eq_zero_or_pos node.visits with none | visited
  · exact .inl none
  · have expanded := (explored.conserves.expanded_iff found).mpr visited
    have bare : node.children = [] := by
      by_contra actions
      obtain ⟨best, favoured'⟩ :=
        explored.favourite found (by rw [role]; rfl) visited actions
      rw [favoured] at favoured'
      cases favoured'
    exact .inr (explored.grown.faithful.deadlock found role expanded bare)

/-- In the chain of an explored tree each situation does what the table says. -/
theorem obeys_of_explored (ordered : Scalar.Ordered α)
    (explored : tree.Explored (fun cursor : Cursor α => cursor.mdp = mdp) root rules horizon
      rollouts)
    (traces : Traces tree chain) (follows : Follows tree chain)
    (found : tree.nodes[here.node]? = some node) (role : node.role = .decision here.state)
    (present : chain.situations[index]? = some here) (listed : chain.rows[index]? = some row) :
    Obeys mdp tree chain here node row := by
  have decision : node.role.isDecision = true := by rw [role]; rfl
  have faithful := explored.grown.faithful
  cases traces.advised_at present listed with
  | nothing favoured taken empty =>
    have rests := rests_of_unfavoured explored found role favoured
    exact ⟨iff_of_true taken empty, iff_of_true empty rests, fun acts => (acts taken).elim⟩
  | @favourite best _ action label outcomes favoured there _ visited chance taken looked =>
    have named := (Tree.favourite_eq_some favoured found).1
    have expanded := (explored.conserves.expanded_iff there).mpr visited
    obtain ⟨choices, place, choice, given, placed, spot, chance', below⟩ :=
      faithful.action found role named there expanded looked
    obtain ⟨-, rfl⟩ := Role.chance.inj (chance.symm.trans chance')
    have leads := follows.row_of_favourite listed present favoured found role there chance looked
    -- draws were made from the outcomes, so there are some
    obtain ⟨-, outcomes', looked', drawn, -⟩ := explored.sampled there chance visited
    rw [looked, Except.ok.injEq] at looked'
    subst looked'
    have full : row ≠ [] := by
      rintro rfl
      exact drawn (List.forall₂_nil_left_iff.mp leads)
    have acts : here.action ≠ none := by rw [taken]; nofun
    -- with the action the node was visited too, and the state has the choice
    have onward : tree.Onward horizon here.node node :=
      Tree.onward_of_decision decision (List.ne_nil_of_mem named) horizon
    obtain ⟨children, kids⟩ := faithful.layered.toLinked.children found
    have entry := Tree.mem_children_of_mem kids found named there
    have above := (explored.visited_iff found onward kids).mpr ⟨_, entry, visited⟩
    have moves : ¬(node.visits = 0 ∨ mdp.states[here.state]? = some []) := by
      rintro (none | none)
      · omega
      · rw [given, Option.some.injEq] at none
        rw [none] at placed
        cases placed
    refine ⟨iff_of_false acts full, iff_of_false full moves, fun _ => ⟨place, choice, action, ?_⟩⟩
    exact ⟨⟨choices, given, placed⟩, ⟨best, spot, there, chance'⟩, taken, visited,
      faithful.layered.toLinked.not_lt_favourite ordered found favoured there,
      outcomes_of_row traces leads below⟩

/-- The chain of a tree that was explored over a table is the table under the
policy of the tree. -/
theorem realizes_of_explored (ordered : Scalar.Ordered α)
    (explored : tree.Explored (fun cursor : Cursor α => cursor.mdp = mdp) root rules horizon
      rollouts) (starts : mdp.starts = [root]) :
    ∃ chain, ofTree tree = .ok chain ∧ chain.Realizes mdp tree := by
  have layered := explored.grown.layered
  obtain ⟨chain, unrolled, traces, whole⟩ := ofTree_ok layered
  have follows := ofTree_follows layered unrolled
  refine ⟨chain, unrolled, ?_, fun {index here} present => ?_⟩
  · obtain ⟨here, present, first⟩ := traces.root
    obtain ⟨node, found, role⟩ := traces.decisions present
    have planted := explored.grown.role_root (Cursor.tracks mdp)
    rw [first, Tree.getElem?_root, Option.some.injEq] at found
    rw [found, role] at planted
    exact ⟨root, here, starts, traces.start, present, Role.decision.inj planted⟩
  · obtain ⟨node, found, role⟩ := traces.decisions present
    obtain ⟨row, listed⟩ := exists_row whole present
    exact ⟨node, row, found, role, listed,
      obeys_of_explored ordered explored traces follows found role present listed⟩

end Explored

end Chain

namespace Planner

/-- A search that comes to its end has planted a tree. -/
theorem plant_of_search {σ υ S α : Type} [Navigator σ S α] [Scalar α] [DrawSource υ α]
    {planner planner' : Planner σ υ S α} {clock : Nat → Nat} {horizon budget : Nat}
    {findings : Findings S α}
    (h : planner.searchWithin clock horizon budget = (.ok findings, planner')) : ∃ tree,
      planner.plant { planner.settings with horizon := horizon, budget := budget } = .ok tree := by
  cases planted : planner.plant { planner.settings with horizon := horizon, budget := budget } with
  | ok tree => exact ⟨tree, rfl⟩
  | error failure =>
    rw [searchWithin, planted] at h
    cases h

/-- A table over which a search comes to its end has one initial state. -/
theorem starts_of_search {υ α : Type} [Scalar α] [DrawSource υ α]
    {planner planner' : Planner (Cursor α) υ Nat α} {clock : Nat → Nat} {horizon budget root : Nat}
    {findings : Findings Nat α}
    (h : planner.searchWithin clock horizon budget = (.ok findings, planner'))
    (start : Navigator.start planner.navigator = .ok root) :
    planner.navigator.mdp.starts = [root] := by
  obtain ⟨tree, planted⟩ := plant_of_search h
  have one : planner.navigator.mdp.starts.length = 1 := by
    by_contra many
    rw [plant_many many (plant_eq_ok planted).1] at planted
    cases planted
  obtain ⟨state, single⟩ := List.length_eq_one_iff.mp one
  have first := Cursor.mem_starts start
  rw [single, List.mem_singleton] at first
  rw [single, first]

/-- In doubles, whatever their logarithm, the chain of every search over a table
that comes to its end is the table under the policy of the search. -/
theorem chain_realizes {υ : Type} (ln : Float → Float) [DrawSource υ Float]
    {planner planner' : Planner (Cursor Float) υ Nat Float} {clock : Nat → Nat}
    {horizon budget : Nat} {findings : Findings Nat Float}
    (h : @Planner.searchWithin (Cursor Float) υ Nat Float _ (.binary64 ln) _ planner clock horizon
      budget = (.ok findings, planner')) :
    ∃ chain, @Chain.ofTree Nat Float (.binary64 ln) findings.tree = .ok chain ∧
      @Chain.Realizes Float (.binary64 ln) planner.navigator.mdp findings.tree chain := by
  let _ := Scalar.binary64 ln
  obtain ⟨-, -, root, rollouts, start, explored⟩ :=
    explored_of_search (Cursor.tracks planner.navigator.mdp) rfl h
  exact Chain.realizes_of_explored (Scalar.ordered_binary64 ln) explored
    (starts_of_search h start)

end Planner

namespace Ford

open scoped Doubles

/-- Those who cross a ford may be carried off; those who walk round it are not. -/
def table : Mdp Float where
  starts := [0]
  states := #[[⟨"walk", [⟨1, 1⟩]⟩, ⟨"cross", [⟨0.5, 1⟩, ⟨0.5, 2⟩]⟩], [],
    [⟨"swim", [⟨1, 1⟩]⟩]]

/-- Crossing earns more. -/
def reward (_ : Nat) (label : String) : Except (Failure Float) Float :=
  .ok (if label = "cross" then 2 else 1)

/-- Two actions ahead, twice. -/
def settings : Settings Float := { Settings.standard with horizon := 2, budget := 2 }

/-- A planner for the ford, whose draws never carry anyone off. -/
def planner : Planner (Cursor Float) (Replay Float) Nat Float :=
  ⟨.ofMdp table, reward, ⟨#[0.25], 0, by decide⟩, settings, []⟩

/-- After two rollouts the chain has both outcomes of crossing, of which one was
never drawn. -/
theorem chain_realizes_of_two : ∃ findings planner' chain,
    planner.searchWithin (fun _ => 0) 2 2 = (.ok findings, planner') ∧
      Chain.ofTree findings.tree = .ok chain ∧ chain.Realizes table findings.tree ∧
        chain.situations.map (·.state) = #[0, 1, 2] ∧
        chain.situations.map (·.action) = #[some "cross", none, none] := by
  have ended : ((planner.searchWithin (fun _ => 0) 2 2).1.toOption.bind fun findings =>
      (Chain.ofTree findings.tree).toOption.map fun chain =>
        (chain.situations.map (·.state), chain.situations.map (·.action))) =
      some (#[0, 1, 2], #[some "cross", none, none]) := by
    decide +kernel
  rcases h : planner.searchWithin (fun _ => 0) 2 2 with ⟨_ | findings, planner'⟩
  · rw [h] at ended
    cases ended
  · obtain ⟨chain, unrolled, realizes⟩ := Planner.chain_realizes Doubles.ln h
    have traced : Chain.ofTree findings.tree = .ok chain := unrolled
    rw [h] at ended
    dsimp only [Except.toOption, Option.bind_some] at ended
    rw [traced] at ended
    obtain ⟨states, actions⟩ := Prod.mk.inj (Option.some.inj ended)
    exact ⟨findings, planner', chain, rfl, traced, realizes, states, actions⟩

end Ford

end HorizonUct
