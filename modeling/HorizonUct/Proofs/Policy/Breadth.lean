import HorizonUct.Proofs.Planner.Conservation
import HorizonUct.Proofs.Policy.Recursion

/-!
# Chains are trees, with the nearest situations first

Rows are filled in from the front while what may follow is put at the end. So
the transitions, row by row, lead to the situations after the first in turn,
whatever tree they were read from: each of them is entered once, from an
earlier situation, and an earlier situation is entered from no later one. This
makes distances from the start grow with the index, and the one pass which
measures how far a chain reaches find every distance in time. Where the levels
of the tree alternate, the distance of a situation is the number of actions
above its node.
-/

namespace HorizonUct

variable {S α : Type}

namespace Chain

variable {chain next : Chain S α} {index source target count : Nat} {probability : α}

/-- The transitions of a row that is filled in come after all others. -/
theorem transitions_fillRow (chain : Chain S α) (action : Option String)
    (following : List (Situation S × α)) :
    (chain.fillRow action following).transitions = chain.transitions ++
      (following.zipIdx chain.size).map fun entry => (chain.rows.size, entry.2, entry.1.2) := by
  rw [transitions, transitions, fillRow, Array.toList_push, List.zipIdx_append,
    List.flatMap_append, List.zipIdx_singleton, List.flatMap_singleton, Array.length_toList,
    Nat.zero_add]
  dsimp only
  rw [List.map_map]
  rfl

/-- A transition is an entry of the row of its source. -/
theorem mem_transitions : (source, target, probability) ∈ chain.transitions ↔
    ∃ row, chain.rows[source]? = some row ∧ (target, probability) ∈ row := by
  rw [transitions, List.mem_flatMap]
  constructor
  · rintro ⟨⟨row, place⟩, listed, mem⟩
    obtain ⟨⟨target', probability'⟩, inside, same⟩ := List.mem_map.mp mem
    cases same
    rw [List.mem_zipIdx_iff_getElem?, Array.getElem?_toList] at listed
    exact ⟨row, listed, inside⟩
  · rintro ⟨row, listed, inside⟩
    refine ⟨(row, source), ?_, List.mem_map.mpr ⟨(target, probability), inside, rfl⟩⟩
    rw [List.mem_zipIdx_iff_getElem?, Array.getElem?_toList]
    exact listed

/-- As many transitions are listed as are counted. -/
theorem length_transitions (chain : Chain S α) :
    chain.transitions.length = chain.transitionCount := by
  have counted : ∀ (rows : List (List (Nat × α))) (count : Nat),
      rows.foldl (fun count row => count + row.length) count =
        count + (rows.map List.length).sum := by
    intro rows
    induction rows with
    | nil => intro count; simp
    | cons row rest ih => intro count; simp [ih]; omega
  have lengths : (chain.rows.toList.zipIdx.map fun entry => entry.1.length) =
      chain.rows.toList.map List.length := by
    have plain := congrArg (List.map List.length) (List.zipIdx_map_fst 0 chain.rows.toList)
    rw [List.map_map] at plain
    exact plain
  rw [transitions, List.length_flatMap, transitionCount, ← Array.foldl_toList, counted]
  simp [lengths]

/-- A chain whose transitions lead to its later situations in turn, row by row. -/
structure Broad (chain : Chain S α) : Prop where
  /-- It starts in its first situation. -/
  start : chain.start = 0
  /-- There is a situation. -/
  size_pos : 0 < chain.size
  /-- There are no more rows than situations. -/
  rows_le : chain.rows.size ≤ chain.size
  /-- The targets are the situations after the first, in order. -/
  targets : (chain.transitions.map fun entry => entry.2.1) = List.range' 1 (chain.size - 1)
  /-- A target comes later than its source. -/
  forward : ∀ entry ∈ chain.transitions, entry.1 < entry.2.1
  /-- The sources come in order. -/
  sorted : chain.transitions.Pairwise fun first second => first.1 ≤ second.1

/-- In the chain of a root alone there are no transitions. -/
theorem broad_ofState (state : S) : (ofState state : Chain S α).Broad :=
  ⟨rfl, Nat.one_pos, Nat.zero_le _, rfl, nofun, .nil⟩

/-- When the missing row is filled in, its transitions lead on to what is put at the end. -/
theorem Broad.fillRow (broad : chain.Broad) (missing : chain.rows.size < chain.size)
    (action : Option String) (following : List (Situation S × α)) :
    (chain.fillRow action following).Broad := by
  have places := transitions_fillRow chain action following
  have size := size_fillRow chain action following
  have first := broad.size_pos
  have early : ∀ entry ∈ chain.transitions, entry.1 < chain.rows.size := by
    intro entry mem
    obtain ⟨row, listed, -⟩ := mem_transitions.mp mem
    exact (Array.getElem?_eq_some_iff.mp listed).1
  refine ⟨broad.start, by omega, ?_, ?_, ?_, ?_⟩
  · rw [size_rows_fillRow]
    omega
  · have whole : chain.size = 1 + (chain.size - 1) := by omega
    have split : chain.size + following.length - 1 = chain.size - 1 + following.length := by omega
    rw [places, size, split, ← List.range'_append_1, ← whole, List.map_append, broad.targets,
      List.map_map, ← List.zipIdx_map_snd]
    rfl
  · intro entry mem
    rw [places] at mem
    rcases List.mem_append.mp mem with old | new
    · exact broad.forward entry old
    · obtain ⟨⟨next, place⟩, inside, rfl⟩ := List.mem_map.mp new
      have later := List.le_snd_of_mem_zipIdx inside
      dsimp only at later ⊢
      omega
  · rw [places]
    refine List.pairwise_append.mpr ⟨broad.sorted, ?_, ?_⟩
    · exact List.pairwise_map.mpr (List.pairwise_of_forall fun _ _ => le_rfl)
    · intro old ho new hn
      obtain ⟨entry, -, rfl⟩ := List.mem_map.mp hn
      exact Nat.le_of_lt (early old ho)

/-- A chain is entered in the order of its situations, whatever tree it was
unrolled from. -/
theorem broad_ofTree [Scalar α] {tree : Tree S α} (h : ofTree tree = .ok chain) : chain.Broad := by
  have step : ∀ {chain next : Chain S α}, chain.fillNext tree = .ok (some next) →
      chain.Broad → next.Broad := by
    intro chain next filled broad
    cases hs : chain.situations[chain.rows.size]? with
    | none =>
      rw [fillNext, hs] at filled
      cases filled
    | some here =>
      have missing := lt_size hs
      rw [fillNext, hs] at filled
      obtain ⟨best?, -, filled⟩ := Attempt.bind_eq_ok_iff.mp filled
      cases best? with
      | none =>
        cases filled
        exact broad.fillRow missing _ _
      | some best =>
        obtain ⟨action, -, filled⟩ := Attempt.bind_eq_ok_iff.mp filled
        obtain ⟨outcomes, -, filled⟩ := Attempt.bind_eq_ok_iff.mp filled
        cases filled
        exact broad.fillRow missing _ _
  rw [ofTree] at h
  split at h
  · exact fill_keeps step h (broad_ofState _)
  · cases h

/-- The transition in a given place leads to the situation after that place. -/
theorem Broad.target_eq (broad : chain.Broad) {place : Nat} {entry : Nat × Nat × α}
    (listed : chain.transitions[place]? = some entry) :
    entry.2.1 = place + 1 ∧ entry.2.1 < chain.size := by
  have target := congrArg (fun targets => targets[place]?) broad.targets
  have inside := (List.getElem?_eq_some_iff.mp listed).1
  have length := congrArg List.length broad.targets
  rw [List.length_map, List.length_range'] at length
  have within : place < chain.size - 1 := by omega
  rw [List.getElem?_map, listed, List.getElem?_range' within, Option.map_some,
    Option.some.injEq] at target
  omega

/-- What is entered later is entered from a later situation, or from the same one. -/
theorem Broad.source_le (broad : chain.Broad) {first second : Nat × Nat × α}
    (hf : first ∈ chain.transitions) (hs : second ∈ chain.transitions)
    (h : first.2.1 ≤ second.2.1) : first.1 ≤ second.1 := by
  obtain ⟨i, hi⟩ := List.mem_iff_getElem?.mp hf
  obtain ⟨j, hj⟩ := List.mem_iff_getElem?.mp hs
  have placed := (broad.target_eq hi).1
  have placed' := (broad.target_eq hj).1
  rcases Nat.lt_or_ge i j with hlt | hge
  · obtain ⟨bound, rfl⟩ := List.getElem?_eq_some_iff.mp hi
    obtain ⟨bound', rfl⟩ := List.getElem?_eq_some_iff.mp hj
    exact List.pairwise_iff_getElem.mp broad.sorted i j bound bound' hlt
  · obtain rfl : i = j := by omega
    rw [hi, Option.some.injEq] at hj
    rw [hj]

/-- Each situation but the first is entered by one transition, and the first by none. -/
theorem Broad.count_target (broad : chain.Broad) (index : Nat) :
    (chain.transitions.map fun entry => entry.2.1).count index =
      if 0 < index ∧ index < chain.size then 1 else 0 := by
  have first := broad.size_pos
  have listed : index ∈ List.range' 1 (chain.size - 1) ↔ 0 < index ∧ index < chain.size := by
    rw [List.mem_range'_1]
    omega
  rw [broad.targets, (List.nodup_range').count, if_congr listed rfl rfl]

/-- A situation that can be reached from the start in so many transitions. -/
inductive ReachedIn (chain : Chain S α) : Nat → Nat → Prop where
  /-- The start is where it is. -/
  | start : ReachedIn chain 0 chain.start
  /-- One transition more leads on. -/
  | step {count source target : Nat} {probability : α} (before : ReachedIn chain count source)
      (transition : (source, target, probability) ∈ chain.transitions) :
      ReachedIn chain (count + 1) target

/-- The first situation is reached without any transition. -/
theorem Broad.origin (broad : chain.Broad) : chain.ReachedIn 0 0 := by
  have here : chain.ReachedIn 0 chain.start := .start
  rwa [broad.start] at here

/-- What is reached is a situation of the chain. -/
theorem Broad.lt_size (broad : chain.Broad) (reached : chain.ReachedIn count index) :
    index < chain.size := by
  cases reached with
  | start =>
    rw [broad.start]
    exact broad.size_pos
  | step before transition =>
    obtain ⟨place, listed⟩ := List.mem_iff_getElem?.mp transition
    exact (broad.target_eq listed).2

/-- Every situation is reached. -/
theorem Broad.exists_reached (broad : chain.Broad) (h : index < chain.size) :
    ∃ count, chain.ReachedIn count index := by
  induction index using Nat.strongRecOn with
  | ind index ih =>
    rcases Nat.eq_zero_or_pos index with rfl | hpos
    · exact ⟨0, broad.origin⟩
    · have entered : index ∈ chain.transitions.map fun entry => entry.2.1 := by
        rw [broad.targets, List.mem_range'_1]
        omega
      obtain ⟨⟨source, target, probability⟩, mem, rfl⟩ := List.mem_map.mp entered
      have earlier := broad.forward _ mem
      obtain ⟨count, before⟩ := ih source earlier (by omega)
      exact ⟨count + 1, .step before mem⟩

/-- A later situation is not reached in fewer transitions. -/
theorem Broad.count_le (broad : chain.Broad) {count' index' : Nat}
    (reached : chain.ReachedIn count index) (reached' : chain.ReachedIn count' index')
    (h : index ≤ index') : count ≤ count' := by
  induction reached' generalizing count index with
  | start =>
    cases reached with
    | start => exact le_rfl
    | step before transition =>
      have later := broad.forward _ transition
      have first := broad.start
      dsimp only at later
      omega
  | step before' transition' ih =>
    cases reached with
    | start => exact Nat.zero_le _
    | step before transition =>
      have earlier := broad.source_le transition transition' h
      have fewer := ih before earlier
      omega

/-- The distances of all situations up to a given one have been found. -/
structure Measured (chain : Chain S α) (last : Nat) (distances : Distances) : Prop where
  /-- There is room for each situation. -/
  size : distances.found.size = chain.size
  /-- The distances that have been found are right. -/
  found : ∀ {index : Nat}, index ≤ last → index < chain.size →
    ∃ distance, distances.found[index]? = some distance ∧ chain.ReachedIn distance index
  /-- The greatest of them is noted. -/
  attained : ∃ index, chain.ReachedIn distances.farthest index
  /-- None is greater. -/
  bound : ∀ {index distance : Nat}, index ≤ last → chain.ReachedIn distance index →
    distance ≤ distances.farthest

/-- Following the next transition finds the distance of the next situation. -/
theorem Measured.follow (broad : chain.Broad) {last : Nat} {distances : Distances}
    (measured : chain.Measured last distances)
    (listed : chain.transitions[last]? = some (source, target, probability)) :
    ∃ more, (distances.follow source target : Except (Failure α) Distances) = .ok more ∧
      chain.Measured (last + 1) more := by
  have mem := List.mem_of_getElem? listed
  obtain ⟨place, inside⟩ := broad.target_eq listed
  have earlier := broad.forward _ mem
  dsimp only at place inside earlier
  have size := measured.size
  obtain ⟨distance, known, reached⟩ := measured.found (by omega) (show source < chain.size by omega)
  have onward : chain.ReachedIn (distance + 1) target := .step reached mem
  refine ⟨⟨distances.found.setIfInBounds target (distance + 1),
    max distances.farthest (distance + 1)⟩, ?_, ?_, ?_, ?_, ?_⟩
  · rw [Distances.follow, known]
    dsimp only
    rw [if_pos (by omega)]
  · rw [Array.size_setIfInBounds, size]
  · intro index hle hlt
    dsimp only
    by_cases he : index = target
    · rw [he, Array.getElem?_setIfInBounds_self_of_lt (by omega)]
      exact ⟨distance + 1, rfl, onward⟩
    · rw [Array.getElem?_setIfInBounds_ne (Ne.symm he)]
      exact measured.found (by omega) hlt
  · dsimp only
    rcases Nat.le_total distances.farthest (distance + 1) with hle | hle
    · rw [max_eq_right hle]
      exact ⟨target, onward⟩
    · rw [max_eq_left hle]
      exact measured.attained
  · intro index other hle reached'
    dsimp only
    by_cases he : index ≤ last
    · have bound := measured.bound he reached'
      omega
    · have bound := broad.count_le reached' onward (by omega)
      omega

/-- Following the remaining transitions finds the distances of all situations. -/
theorem Measured.run (broad : chain.Broad) {last : Nat} {distances : Distances}
    (measured : chain.Measured last distances) {rest : List (Nat × Nat × α)}
    (remain : chain.transitions.drop last = rest) :
    ∃ more, (rest.foldlM (fun distances (source, target, _) => distances.follow source target)
      distances : Except (Failure α) Distances) = .ok more ∧ chain.Measured chain.size more := by
  induction rest generalizing last distances with
  | nil =>
    have length := congrArg List.length broad.targets
    rw [List.length_map, List.length_range'] at length
    have done := List.drop_eq_nil_iff.mp remain
    refine ⟨distances, rfl, measured.size, fun _ hlt => measured.found (by omega) hlt,
      measured.attained, fun _ reached => ?_⟩
    have present := broad.lt_size reached
    exact measured.bound (by omega) reached
  | cons entry rest ih =>
    have listed : chain.transitions[last]? = some entry := by
      rw [← List.head?_drop, remain]
      rfl
    have remain' : chain.transitions.drop (last + 1) = rest := by
      rw [← List.tail_drop, remain]
      rfl
    obtain ⟨more, followed, measured'⟩ := measured.follow broad listed
    rw [List.foldlM_cons]
    dsimp only
    rw [followed]
    exact ih measured' remain'

/-- A chain reaches as far as its longest path leads. -/
theorem Broad.reach_ok (broad : chain.Broad) : ∃ depth, chain.reach = .ok depth ∧
    (∃ index, chain.ReachedIn depth index) ∧
      ∀ {index count : Nat}, chain.ReachedIn count index → count ≤ depth := by
  have first : chain.Measured 0 ⟨Array.replicate chain.size 0, 0⟩ := by
    have origin := broad.origin
    refine ⟨Array.size_replicate, fun hle hlt => ?_, ⟨0, origin⟩, fun hle reached => ?_⟩
    · obtain rfl := Nat.le_zero.mp hle
      exact ⟨0, by rw [Array.getElem?_replicate, if_pos hlt], origin⟩
    · exact broad.count_le reached origin hle
  obtain ⟨distances, ran, measured⟩ := first.run broad List.drop_zero
  refine ⟨distances.farthest, ?_, measured.attained, fun reached => ?_⟩
  · rw [reach, ran]
    rfl
  · exact measured.bound (Nat.le_of_lt (broad.lt_size reached)) reached

section Depth

variable [Scalar α] {tree : Tree S α}

/-- As many transitions lead to a situation as there are actions above its node. -/
theorem ReachedIn.depthAt (reached : chain.ReachedIn count index) (branching : tree.Branching)
    (traces : Traces tree chain) (follows : Follows tree chain) {here : Situation S}
    (present : chain.situations[index]? = some here) : tree.DepthAt here.node count := by
  induction reached generalizing here with
  | start =>
    obtain ⟨first, hf, node⟩ := traces.root
    rw [traces.start, hf, Option.some.injEq] at present
    rw [← present, node]
    exact branching.depthAt_root
  | @step count source target probability before transition ih =>
    obtain ⟨row, listed, inside⟩ := mem_transitions.mp transition
    obtain ⟨above, ha, -⟩ := traces.advised listed
    have depthAt := ih ha
    obtain ⟨node, found, role⟩ := traces.decisions ha
    have decision : node.role.isDecision = true := by rw [role]; rfl
    obtain ⟨advice?, advised⟩ := branching.advice_ok found decision
    obtain ⟨outcome, after, -, -, there, ht, same⟩ :=
      Attempt.exists_of_mem_left (follows.row listed ha advised) inside
    rw [present, Option.some.injEq] at ht
    rw [ht, same]
    cases advice? with
    | none => cases after
    | some advice =>
      -- an outcome lies two levels below, and one action
      obtain ⟨-, best, -, action, place, favoured, -, -, there', chance, looked⟩ :=
        Tree.advice_eq_some advised
      have below := (Tree.favourite_eq_some favoured found).1
      have depthAt' := branching.depthAt_child depthAt found below
      rw [if_pos decision] at depthAt'
      have below' := Tree.fst_mem_of_mem_children looked there' after
      have deeper := branching.depthAt_child depthAt' there' below'
      rw [chance] at deeper
      exact deeper

/-- A chain that unrolls a tree from its root, the nearest situations first. -/
structure BreadthFirst (tree : Tree S α) (chain : Chain S α) : Prop where
  /-- There is a row for each situation. -/
  rows : chain.rows.size = chain.size
  /-- The first situation is the start. -/
  start : chain.start = 0
  /-- There is one transition less than there are situations. -/
  transitions : chain.transitionCount + 1 = chain.size
  /-- A transition leads to a later situation. -/
  forward : ∀ entry ∈ chain.transitions, entry.1 < entry.2.1
  /-- No transition leads to the start, and one to each other situation. -/
  entered : ∀ index, (chain.transitions.map fun entry => entry.2.1).count index =
    if 0 < index ∧ index < chain.size then 1 else 0
  /-- A situation stands for a node that has its state. -/
  decisions : ∀ {index : Nat} {here : Situation S}, chain.situations[index]? = some here →
    ∃ node, tree.nodes[here.node]? = some node ∧ node.role = .decision here.state
  /-- No two situations stand for one node. -/
  distinct : ∀ {i j : Nat} {here there : Situation S}, chain.situations[i]? = some here →
    chain.situations[j]? = some there → here.node = there.node → i = j
  /-- Each situation is reached in as many transitions as there are actions above its
  node, and in no other number. -/
  reached : ∀ {index : Nat} {here : Situation S}, chain.situations[index]? = some here →
    ∃ count, tree.actionsBefore here.node = .ok count ∧
      ∀ other, chain.ReachedIn other index ↔ other = count
  /-- The nearer situations come first. -/
  nearest : ∀ {i j count count' : Nat}, chain.ReachedIn count i → chain.ReachedIn count' j →
    i ≤ j → count ≤ count'
  /-- The chain reaches as far as its longest path, which is as deep as the deepest
  of its nodes. -/
  reach : ∃ depth, chain.reach = .ok depth ∧
    (∃ index, chain.ReachedIn depth index) ∧
    (∀ {index count : Nat}, chain.ReachedIn count index → count ≤ depth) ∧
    (∃ here ∈ chain.situations, tree.actionsBefore here.node = .ok depth) ∧
    ∀ here ∈ chain.situations, ∃ count ≤ depth, tree.actionsBefore here.node = .ok count

/-- A tree whose levels alternate unrolls, the nearest situations first. -/
theorem breadthFirst_of_branching (branching : tree.Branching) :
    ∃ chain, ofTree tree = .ok chain ∧ chain.BreadthFirst tree := by
  obtain ⟨chain, unrolled, traces, whole⟩ := ofTree_of_branching branching
  have follows := follows_of_branching branching unrolled
  have broad := broad_ofTree unrolled
  have deep : ∀ {index count : Nat} {here : Situation S}, chain.ReachedIn count index →
      chain.situations[index]? = some here → tree.actionsBefore here.node = .ok count :=
    fun reached present => (reached.depthAt branching traces follows present).actionsBefore
  have reached : ∀ {index : Nat} {here : Situation S}, chain.situations[index]? = some here →
      ∃ count, tree.actionsBefore here.node = .ok count ∧
        ∀ other, chain.ReachedIn other index ↔ other = count := by
    intro index here present
    obtain ⟨count, reached⟩ := broad.exists_reached (lt_size present)
    refine ⟨count, deep reached present, fun other => ⟨fun again => ?_, fun he => he ▸ reached⟩⟩
    have least := broad.count_le again reached le_rfl
    have most := broad.count_le reached again le_rfl
    omega
  refine ⟨chain, unrolled, whole, traces.start, ?_, broad.forward, broad.count_target,
    traces.decisions, traces.distinct, reached, fun first second => broad.count_le first second,
    ?_⟩
  · have length := congrArg List.length broad.targets
    have some := broad.size_pos
    rw [List.length_map, List.length_range', length_transitions] at length
    omega
  · obtain ⟨depth, measured, ⟨index, farthest⟩, bound⟩ := broad.reach_ok
    refine ⟨depth, measured, ⟨index, farthest⟩, bound, ?_, fun here mem => ?_⟩
    · have present := broad.lt_size farthest
      have there : chain.situations[index]? = some chain.situations[index] :=
        Array.getElem?_eq_getElem present
      exact ⟨_, Array.getElem_mem present, deep farthest there⟩
    · obtain ⟨place, there⟩ := Array.mem_iff_getElem?.mp mem
      obtain ⟨count, counted, only⟩ := reached there
      exact ⟨count, bound ((only count).mpr rfl), counted⟩

end Depth

/-- The chain of every tree whose levels alternate is itself a tree, with the
nearest situations first and nothing left out. Every tree that rollouts can
have grown is such a tree, and the chain of one that a search returns reaches
no farther than the horizon of the search. -/
theorem breadthFirst_of_search {σ υ S α : Type} [Navigator σ S α] [Scalar α] [DrawSource υ α] :
    (∀ tree : Tree S α, tree.Branching →
      ∃ chain, ofTree tree = .ok chain ∧ chain.BreadthFirst tree) ∧
    (∀ {kind : σ → Prop} {root : S} {outcomes : List (Except (Failure α) (Rollout α))}
      {tree : Tree S α}, Tree.Grown kind root outcomes tree → tree.Branching) ∧
    ∀ {planner planner' : Planner σ υ S α} {clock : Nat → Nat} {horizon budget : Nat}
      {findings : Findings S α},
      planner.searchWithin clock horizon budget = (.ok findings, planner') →
        findings.tree.Branching ∧ ∃ chain depth, ofTree findings.tree = .ok chain ∧
          chain.BreadthFirst findings.tree ∧ chain.reach = .ok depth ∧ depth ≤ horizon := by
  refine ⟨fun tree => breadthFirst_of_branching, fun grown => grown.layered.branching, ?_⟩
  intro planner planner' clock horizon budget findings searched
  obtain ⟨-, -, root, rollouts, -, explored⟩ :=
    Planner.explored_of_search tracks_any trivial searched
  have branching := explored.grown.layered.branching
  obtain ⟨chain, unrolled, broad⟩ := breadthFirst_of_branching branching
  obtain ⟨depth, measured, -, -, ⟨here, mem, counted⟩, -⟩ := broad.reach
  refine ⟨branching, chain, depth, unrolled, broad, measured, ?_⟩
  obtain ⟨index, present⟩ := Array.mem_iff_getElem?.mp mem
  obtain ⟨node, found, -⟩ := broad.decisions present
  obtain ⟨depth', depthAt, within, -⟩ := explored.depth_le found
  rw [depthAt.actionsBefore, Except.ok.injEq] at counted
  omega

end Chain

namespace Fork

/-- An action that has been tried. -/
def tried : Node Nat ℚ := { Node.chance 0 "toss" with visits := 1 }

/-- A tree put together by hand, in which nothing is expanded. -/
def sketch : Tree Nat ℚ :=
  let tree := (((Tree.ofRoot 0).attach 0 tried).1.attach 1 (.decision 1 (some (1 / 2)))).1
  (tree.attach 1 (.decision 2 none)).1

/-- The levels of the sketch alternate. -/
theorem branching_sketch : sketch.Branching := by
  have planted : (Tree.ofRoot 0 : Tree Nat ℚ).Branching := (Tree.layered_ofRoot 0).branching
  have acts : ((Tree.ofRoot 0).attach 0 tried).1.Branching := planted.attach rfl rfl rfl
  have once : (((Tree.ofRoot 0).attach 0 tried).1.attach 1
      (.decision 1 (some (1 / 2)))).1.Branching := acts.attach rfl rfl rfl
  exact once.attach rfl rfl rfl

/-- The sketch unrolls to three situations and reaches one action far, and a
search that looks two actions ahead does not reach farther. -/
theorem breadthFirst_sketch_four :
    (∃ chain, Chain.ofTree sketch = .ok chain ∧ chain.BreadthFirst sketch ∧ chain.size = 3 ∧
      chain.reach = .ok 1) ∧ side.2.tree.Branching ∧
    ∃ findings planner', planner.searchWithin (fun _ => 0) 2 4 = (.ok findings, planner') ∧
      ∃ chain depth, Chain.ofTree findings.tree = .ok chain ∧
        chain.BreadthFirst findings.tree ∧ chain.reach = .ok depth ∧ depth ≤ 2 := by
  obtain ⟨unrolls, grows, searches⟩ :=
    @Chain.breadthFirst_of_search (Cursor ℚ) (Replay ℚ) Nat ℚ _ _ _
  refine ⟨?_, grows grown_short_long_side, ?_⟩
  · obtain ⟨chain, unrolled, broad⟩ := unrolls sketch branching_sketch
    have measured : ((Chain.ofTree sketch).toOption.map fun chain =>
        (chain.size, chain.reach.toOption)) = some (3, some 1) := by decide +kernel
    rw [unrolled] at measured
    obtain ⟨three, one⟩ := Prod.mk.inj (Option.some.inj measured)
    obtain ⟨depth, reach, -⟩ := broad.reach
    rw [reach] at one
    exact ⟨chain, unrolled, broad, three, by rw [reach, Option.some.inj one]⟩
  · have ended : (planner.searchWithin (fun _ => 0) 2 4).1.isOk = true := by decide +kernel
    rcases h : planner.searchWithin (fun _ => 0) 2 4 with ⟨_ | findings, planner'⟩
    · rw [h] at ended
      cases ended
    · exact ⟨findings, planner', rfl, (searches h).2⟩

end Fork

end HorizonUct
