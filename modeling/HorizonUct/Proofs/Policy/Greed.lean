import HorizonUct.Proofs.Planner.Incentives
import HorizonUct.Proofs.Planner.Tallies
import HorizonUct.Proofs.Policy.Walk
import HorizonUct.Proofs.Rollout.Termination
import HorizonUct.Proofs.Tree.Eclipse

/-!
# Greedy walks go from best to best

A walk goes on to the favourite as long as there is one. The walk from one of its
stops is what is left of it, since nothing but the tree tells where it goes. If
the means are numbers, each stop is the first of the best below the one before.
In the tree of a search a walk from the root takes no more actions than the
horizon allows, and all its stops have been visited, once there was a rollout.

A walk is bounded in its definition, so that it can be told. Here it is told
without the bound, and the bound turns out to make no difference.
-/

namespace HorizonUct

namespace Tree

variable {S α : Type} [Scalar α] {tree : Tree S α} {id last : Nat} {stops : List (Stop S α)}

/-- The stops of a walk and where it ends, with nothing to bound them. -/
inductive Wanders (tree : Tree S α) : Nat → List (Stop S α) → Nat → Prop where
  /-- It rests at a node without a favourite. -/
  | rest {id : Nat} {node : Node S α} (found : tree.nodes[id]? = some node)
      (none : tree.favourite id = .ok none) : Wanders tree id [node.stop id] id
  /-- It goes on to the favourite. -/
  | onward {id next last : Nat} {node : Node S α} {stops : List (Stop S α)}
      (found : tree.nodes[id]? = some node) (favoured : tree.favourite id = .ok (some next))
      (onward : Wanders tree next stops last) : Wanders tree id (node.stop id :: stops) last

/-- A walk that can be told within a bound is one without. -/
theorem wanders_of_walkWithin {bound : Nat} {walk : Walk S α}
    (told : tree.walkWithin bound id = .ok walk) : tree.Wanders id walk.stops walk.last := by
  induction bound using Nat.strongRecOn generalizing id walk with
  | ind bound ih =>
    obtain ⟨node, found, way⟩ := walkWithin_eq_ok told
    rcases way with ⟨none, rfl⟩ | ⟨next, fewer, rest, favoured, less, onward, rfl⟩
    · exact .rest found none
    · exact .onward found favoured (ih fewer less onward)

/-- There is one walk from a node. -/
theorem Wanders.unique {stops' : List (Stop S α)} {last' : Nat}
    (wanders : tree.Wanders id stops last) (wanders' : tree.Wanders id stops' last') :
    stops = stops' ∧ last = last' := by
  induction wanders generalizing stops' with
  | rest found none =>
    cases wanders' with
    | rest found' =>
      rw [found, Option.some.injEq] at found'
      exact ⟨by rw [found'], rfl⟩
    | onward _ favoured =>
      rw [none] at favoured
      cases favoured
  | onward found favoured _ ih =>
    cases wanders' with
    | rest _ none =>
      rw [favoured] at none
      cases none
    | onward found' favoured' onward' =>
      rw [found, Option.some.injEq] at found'
      rw [favoured, Except.ok.injEq, Option.some.injEq] at favoured'
      subst favoured'
      obtain ⟨same, end_⟩ := ih onward'
      exact ⟨by rw [found', same], end_⟩

/-- A walk starts where it is said to. -/
theorem Wanders.starts (wanders : tree.Wanders id stops last) :
    ∃ node rest, tree.nodes[id]? = some node ∧ stops = node.stop id :: rest := by
  cases wanders with
  | rest found | onward found => exact ⟨_, _, found, rfl⟩

/-- From each of its stops on, a walk is the one from there. -/
theorem Wanders.drop (wanders : tree.Wanders id stops last) {turn : Nat} {stop : Stop S α}
    (there : stops[turn]? = some stop) : tree.Wanders stop.node (stops.drop turn) last := by
  induction wanders generalizing turn with
  | rest found none =>
    cases turn with
    | zero =>
      obtain rfl := Option.some.inj there
      exact .rest found none
    | succ turn => cases there
  | onward found favoured onward ih =>
    cases turn with
    | zero =>
      obtain rfl := Option.some.inj there
      exact .onward found favoured onward
    | succ turn => exact ih there

/-- The stops of a walk tell of nodes of the tree. -/
theorem Wanders.told (wanders : tree.Wanders id stops last) : ∀ stop ∈ stops,
    ∃ node, tree.nodes[stop.node]? = some node ∧ stop = node.stop stop.node := by
  intro stop hs
  obtain ⟨turn, there⟩ := List.mem_iff_getElem?.mp hs
  obtain ⟨node, rest, found, split⟩ := (wanders.drop there).starts
  have first := congrArg List.head? split
  rw [List.head?_drop, there] at first
  exact ⟨node, found, Option.some.inj first⟩

/-- Each further stop is at the favourite of the node before it. -/
theorem Wanders.steps (wanders : tree.Wanders id stops last) :
    stops.IsChain fun here next => tree.favourite here.node = .ok (some next.node) := by
  induction wanders with
  | rest => exact .singleton _
  | @onward id next last node stops found favoured onward ih =>
    obtain ⟨_, rest, -, rfl⟩ := onward.starts
    exact .cons_cons favoured ih

/-- A walk ends at its last stop, at a node without a favourite. -/
theorem Wanders.ends (wanders : tree.Wanders id stops last) :
    (∃ stop, stops.getLast? = some stop ∧ stop.node = last) ∧ tree.favourite last = .ok none := by
  induction wanders with
  | rest found none => exact ⟨⟨_, rfl, rfl⟩, none⟩
  | onward found favoured onward ih =>
    obtain ⟨⟨stop, end_, at_⟩, none⟩ := ih
    obtain ⟨_, rest, -, rfl⟩ := onward.starts
    exact ⟨⟨stop, by rw [List.getLast?_cons_cons, end_], at_⟩, none⟩

/-- In a linked table the walk from a node is the only one, and can be told. -/
theorem Linked.walkFrom_eq_ok_iff (linked : tree.Linked) (here : id < tree.size) {walk : Walk S α} :
    tree.walkFrom id = .ok walk ↔ tree.Wanders id walk.stops walk.last := by
  refine ⟨wanders_of_walkWithin, fun wanders => ?_⟩
  obtain ⟨walk', told, -⟩ := linked.walkWithin here (Nat.le_add_right tree.size id)
  obtain ⟨stops, end_⟩ := wanders.unique (wanders_of_walkWithin told)
  rw [walkFrom, told, Except.ok.injEq]
  obtain ⟨_, _⟩ := walk
  obtain ⟨_, _⟩ := walk'
  exact congrArg₂ Walk.mk stops.symm end_.symm

omit [Scalar α] in
/-- Stops behind an action have one more action above them, and those behind a state
have not. -/
theorem length_actions_cons (node : Node S α) (id : Nat) (stops : List (Stop S α)) (depth : Nat) :
    ((node.stop id :: stops).filterMap (·.action)).length + depth =
      (stops.filterMap (·.action)).length + if node.role.isDecision then depth else depth + 1 := by
  rcases role : node.role with state | ⟨place, label⟩
  · simp [Node.stop, role, Role.label?, Role.isDecision]
  · simp [Node.stop, role, Role.label?, Role.isDecision]
    omega

/-- If nothing lies below more actions than the horizon allows, a walk takes at most
as many actions as are left where it starts. -/
theorem Wanders.length_actions_add (wanders : tree.Wanders id stops last) (linked : tree.Linked)
    {horizon depth : Nat} (depthAt : tree.DepthAt id depth) (within : depth ≤ horizon)
    (shallow : ∀ {id depth : Nat} {node : Node S α}, tree.nodes[id]? = some node →
      tree.DepthAt id depth → node.role.isDecision = false → depth + 1 ≤ horizon) :
    (stops.filterMap (·.action)).length + depth ≤ horizon := by
  -- what lies behind a node is not too deep either
  have behind : ∀ {id depth : Nat} {node : Node S α}, tree.nodes[id]? = some node →
      tree.DepthAt id depth → depth ≤ horizon →
        (if node.role.isDecision then depth else depth + 1) ≤ horizon := by
    intro id depth node found depthAt within
    cases role : node.role.isDecision with
    | true => exact within
    | false => exact shallow found depthAt role
  induction wanders generalizing depth with
  | rest found none =>
    rw [length_actions_cons, List.filterMap_nil, List.length_nil, Nat.zero_add]
    exact behind found depthAt within
  | onward found favoured onward ih =>
    obtain ⟨below, -⟩ := favourite_eq_some favoured found
    rw [length_actions_cons]
    exact ih (depthAt.atChild linked found below) (behind found depthAt within)

/-- All stops but the first have been visited. -/
theorem Wanders.visited (wanders : tree.Wanders id stops last) :
    ∀ stop ∈ stops.tail, 0 < stop.visits := by
  induction wanders with
  | rest => nofun
  | onward found favoured onward ih =>
    obtain ⟨node, rest, there, rfl⟩ := onward.starts
    intro stop hs
    rcases List.mem_cons.mp hs with rfl | hs
    · obtain ⟨-, below, hb, visited⟩ := favourite_eq_some favoured found
      rw [there, Option.some.injEq] at hb
      rw [Node.stop, hb]
      exact visited
    · exact ih stop hs

/-- A node with a favourite, or known to have none, has its children in the table. -/
theorem children_of_favourite {best? : Option Nat} (favoured : tree.favourite id = .ok best?) :
    ∃ children, tree.children id = .ok children := by
  rw [favourite, Attempt.bind_eq_ok_iff] at favoured
  obtain ⟨children, looked, -⟩ := favoured
  exact ⟨children, looked⟩

/-- A walk from best to best. -/
structure Greedy (tree : Tree S α) (start : Nat) (walk : Walk S α) : Prop where
  /-- Its stops tell of nodes of the tree. -/
  told : ∀ stop ∈ walk.stops,
    ∃ node, tree.nodes[stop.node]? = some node ∧ stop = node.stop stop.node
  /-- It starts where it is said to. -/
  first : walk.stops.head?.map (·.node) = some start
  /-- Each further stop is at the first of the visited children with the greatest means. -/
  steps : walk.stops.IsChain fun here next => ∃ children best,
    tree.children here.node = .ok children ∧ best.1 = next.node ∧
      Foremost (fun entry => entry.2.mean) (visited children) best
  /-- It ends at its last stop. -/
  last : walk.stops.getLast?.map (·.node) = some walk.last
  /-- No child has been visited there. -/
  rests : ∃ children, tree.children walk.last = .ok children ∧
    ∀ entry ∈ children, entry.2.visits = 0
  /-- The walk from one of its stops is what is left of it. -/
  onward : ∀ {turn : Nat} {stop : Stop S α}, walk.stops[turn]? = some stop →
    tree.walkFrom stop.node = .ok ⟨walk.stops.drop turn, walk.last⟩
  /-- It can be entered in the journal. -/
  entered : ∃ events, tree.walkEvents walk = .ok events

/-- In a linked table where visited nodes have numbers for means, a walk goes from
best to best. -/
theorem Wanders.greedy (compares : Scalar.Comparable α) (linked : tree.Linked)
    (numbers : ∀ {id : Nat} {node : Node S α}, tree.nodes[id]? = some node → 0 < node.visits →
      Scalar.isUndefined node.mean = false) {walk : Walk S α}
    (wanders : tree.Wanders id walk.stops walk.last) : Greedy tree id walk := by
  have inside : ∀ stop ∈ walk.stops, stop.node < tree.size := fun stop hs => by
    obtain ⟨node, found, -⟩ := wanders.told stop hs
    exact lt_size found
  obtain ⟨⟨stop, end_, there⟩, none⟩ := wanders.ends
  obtain ⟨node, rest, -, split⟩ := wanders.starts
  refine ⟨wanders.told, ?_, ?_, ?_, ?_, fun {turn stop} at_ => ?_, linked.walkEvents inside⟩
  · rw [split]
    rfl
  · refine wanders.steps.imp fun here next favoured => ?_
    obtain ⟨children, looked⟩ := children_of_favourite favoured
    obtain ⟨best, same, outlasts⟩ := outlasts_of_favourite compares looked favoured
    refine ⟨children, best, looked, same, outlasts.foremost fun entry he => ?_⟩
    obtain ⟨below, tried⟩ := mem_visited.mp he
    exact numbers (getElem?_of_mem_children looked below) tried
  · rw [end_, Option.map_some, there]
  · obtain ⟨children, looked⟩ := children_of_favourite none
    exact ⟨children, looked, (favourite_eq_none_iff looked).mp none⟩
  · exact (linked.walkFrom_eq_ok_iff (inside stop (List.mem_of_getElem? at_))).mpr
      (wanders.drop at_)

section Explored

variable {σ : Type} [Navigator σ S α] {kind : σ → Prop} {root : S} {rules : Rules S α}
variable {horizon : Nat} {rollouts : List (Rollout α)}

/-- In an explored tree a walk from the root takes no more actions than the horizon allows. -/
theorem Explored.length_actions_le (explored : tree.Explored kind root rules horizon rollouts)
    (wanders : tree.Wanders 0 stops last) :
    (stops.filterMap (·.action)).length ≤ horizon := by
  have linked := explored.grown.layered.toLinked
  refine wanders.length_actions_add linked linked.depthAt_root (Nat.zero_le horizon)
    fun found depthAt chance => ?_
  obtain ⟨depth, depthAt', -, fits⟩ := explored.depth_le found
  have same := depthAt.actionsBefore.symm.trans depthAt'.actionsBefore
  rw [Except.ok.inj same]
  exact fits chance

/-- In an explored tree the root has been visited once there was a rollout. -/
theorem Explored.root_visited (explored : tree.Explored kind root rules horizon rollouts)
    (far : 0 < horizon) (several : rollouts ≠ []) {node : Node S α}
    (found : tree.nodes[0]? = some node) : 0 < node.visits := by
  obtain ⟨rollout, hr⟩ := List.exists_mem_of_ne_nil rollouts several
  obtain ⟨way, rest, route, path⟩ := explored.routed rollout hr
  obtain ⟨earned, later, rfl⟩ := route.starts far
  rw [explored.visits found, List.count_pos_iff]
  refine List.mem_flatMap.mpr ⟨rollout, hr, ?_⟩
  rw [path, fst_returnsOf]
  exact List.mem_cons_self

end Explored

/-- In a tree that was put together in any way, with numbers for the means of the
visited nodes, there is a walk from every node, and it goes from best to best. -/
theorem Assembled.greedy (compares : Scalar.Comparable α) (assembled : tree.Assembled)
    (numbers : ∀ {id : Nat} {node : Node S α}, tree.nodes[id]? = some node → 0 < node.visits →
      Scalar.isUndefined node.mean = false) (here : id < tree.size) :
    ∃ walk, tree.walkFrom id = .ok walk ∧ Greedy tree id walk := by
  have linked := assembled.linked
  obtain ⟨walk, told, -⟩ := linked.walkWithin here (Nat.le_add_right tree.size id)
  exact ⟨walk, told, (wanders_of_walkWithin told).greedy compares linked numbers⟩

/-- A walk that a search leads to: it takes no more actions than the horizon allows,
and all its stops have been visited, once there was a rollout. -/
structure Reached (horizon rollouts : Nat) (walk : Walk S α) : Prop where
  /-- It takes no more actions than the horizon allows. -/
  length_le : walk.actions.length ≤ horizon
  /-- Once there was a rollout, all its stops have been visited. -/
  visited : 0 < rollouts → ∀ stop ∈ walk.stops, 0 < stop.visits

/-- There is such a walk from the root of the tree of every search that comes to its end. -/
theorem reached_of_search {σ υ : Type} [Navigator σ S α] [DrawSource υ α]
    {planner planner' : Planner σ υ S α} {clock : Nat → Nat} {horizon budget : Nat}
    {findings : Findings S α}
    (h : planner.searchWithin clock horizon budget = (.ok findings, planner')) :
    ∃ walk, findings.tree.walkFrom 0 = .ok walk ∧ Reached horizon findings.tally.rollouts walk := by
  obtain ⟨moment, journal, passes, rfl, -, -⟩ := Planner.ends_of_search h
  obtain ⟨-, checked, -, root, rollouts, -, explored, accounts⟩ :=
    passes.accounts tracks_any trivial
  obtain ⟨walk, -, told, -⟩ := explored.grown.layered.toLinked.walk_ok
  have wanders := wanders_of_walkWithin told
  refine ⟨walk, told, explored.length_actions_le wanders, fun some stop hs => ?_⟩
  have several : rollouts ≠ [] := by
    rintro rfl
    exact absurd accounts.counted (Nat.ne_of_gt some)
  obtain ⟨node, rest, found, split⟩ := wanders.starts
  rw [split] at hs
  rcases List.mem_cons.mp hs with rfl | hs
  · exact explored.root_visited (Settings.of_check checked).1 several found
  · refine wanders.visited stop ?_
    rw [split]
    exact hs

/-- With doubles, whatever logarithm they come with, every walk through a tree that
was put together in any way, of nodes that are put in without children of their own,
goes from best to best, provided that the means of the visited nodes are numbers. The
walk from the root of a searched tree takes no more actions than the horizon allows
and has visited stops only, once there was a rollout. -/
theorem greedy_of_walkFrom {S : Type} (ln : Float → Float) :
    (∀ {tree : Tree S Float} {start : Nat}, @Assembled S Float (.binary64 ln) tree →
      (∀ {id : Nat} {node : Node S Float}, tree.nodes[id]? = some node → 0 < node.visits →
        @Scalar.isUndefined Float (.binary64 ln) node.mean = false) →
      start < tree.size → ∃ walk, @walkFrom S Float (.binary64 ln) tree start = .ok walk ∧
        @Greedy S Float (.binary64 ln) tree start walk) ∧
    ∀ {σ υ : Type} [Navigator σ S Float] [DrawSource υ Float]
      {planner planner' : Planner σ υ S Float} {clock : Nat → Nat} {horizon budget : Nat}
      {findings : Findings S Float},
      @Planner.searchWithin σ υ S Float _ (.binary64 ln) _ planner clock horizon budget =
        (.ok findings, planner') →
      ∃ walk, @walkFrom S Float (.binary64 ln) findings.tree 0 = .ok walk ∧
        Reached horizon findings.tally.rollouts walk := by
  let _ := Scalar.binary64 ln
  exact ⟨fun assembled numbers here =>
    assembled.greedy (Scalar.comparable_binary64 ln) numbers here, fun h => reached_of_search h⟩

end Tree

namespace Parcel

open scoped Doubles

/-- A parcel may be kept, which was never tried, or sent in three ways, the last two of
them equally good. The second may lose it, which calls for another attempt. -/
def nodes : List (Nat × Node Nat Float) :=
  [(0, { Node.chance 0 "keep" with mean := 9 }),
    (0, { Node.chance 1 "walk" with visits := 3, mean := 1 }),
    (0, { Node.chance 2 "send" with visits := 7, mean := 4 }),
    (0, { Node.chance 3 "ship" with visits := 2, mean := 4 }),
    (3, { Node.decision 1 (some 0.2) with visits := 1 }),
    (3, { Node.decision 2 (some 0.8) with visits := 6, mean := 3 }),
    (6, { Node.chance 0 "retry" with visits := 6, mean := 3 }), (7, Node.decision 3 (some 1))]

/-- The tree with these nodes below the root, each under the one that is named. -/
def tree : Tree Nat Float :=
  nodes.foldl (fun tree (parent, child) => (tree.attach parent child).1) (.ofRoot 0)

/-- Each node is put under one that is there. -/
theorem assembled : tree.Assembled := by
  have present : ∀ {tree : Tree Nat Float} {parent : Nat}, decide (parent < tree.size) = true →
      parent < tree.size := of_decide_eq_true
  refine .attached (.attached (.attached (.attached (.attached (.attached (.attached (.attached
    (.planted 0) ?_ rfl) ?_ rfl) ?_ rfl) ?_ rfl) ?_ rfl) ?_ rfl) ?_ rfl) ?_ rfl <;>
    exact present (by decide +kernel)

/-- The walk sends the parcel, finds it lost and sends it again, and that goes from best
to best. The walk through the tree of a search takes one action. -/
theorem greedy_of_lost : (tree.Assembled ∧
    (∀ {id : Nat} {node : Node Nat Float}, tree.nodes[id]? = some node → 0 < node.visits →
      Scalar.isUndefined node.mean = false) ∧ 0 < tree.size ∧
      ∃ walk, tree.walkFrom 0 = .ok walk ∧ tree.Greedy 0 walk ∧
        walk.stops.map (·.node) = [0, 3, 6, 7]) ∧
    ∃ findings planner' walk,
      (Roads.planner 2).searchWithin (fun _ => 0) 2 4 = (.ok findings, planner') ∧
        findings.tree.walkFrom 0 = .ok walk ∧ walk.actions = ["a"] ∧ findings.tally.rollouts = 4 ∧
          Tree.Reached 2 findings.tally.rollouts walk := by
  have numbers : ∀ {id : Nat} {node : Node Nat Float}, tree.nodes[id]? = some node →
      0 < node.visits → Scalar.isUndefined node.mean = false := by
    have all : tree.nodes.all (fun node => !Scalar.isUndefined node.mean) = true := by
      decide +kernel
    intro id node found _
    have number := Array.all_eq_true'.mp all node (Array.mem_of_getElem? found)
    rwa [Bool.not_eq_true'] at number
  have here : 0 < tree.size := tree.size_pos
  refine ⟨⟨assembled, numbers, here, ?_⟩, ?_⟩
  · obtain ⟨walk, told, greedy⟩ := (Tree.greedy_of_walkFrom Doubles.ln).1 assembled numbers here
    have way : (tree.walkFrom 0).toOption.map (fun walk => walk.stops.map (·.node)) =
        some [0, 3, 6, 7] := by
      decide +kernel
    have found : tree.walkFrom 0 = .ok walk := told
    rw [found] at way
    exact ⟨walk, found, greedy, Option.some.inj way⟩
  · have ended : (((Roads.planner 2).searchWithin (fun _ => 0) 2 4).1.toOption.bind
        fun findings => (findings.tree.walkFrom 0).toOption.map fun walk =>
          (walk.actions, findings.tally.rollouts)) = some (["a"], 4) := by
      decide +kernel
    rcases h : (Roads.planner 2).searchWithin (fun _ => 0) 2 4 with ⟨_ | findings, planner'⟩
    · rw [h] at ended
      cases ended
    · obtain ⟨walk, told, reached⟩ := (Tree.greedy_of_walkFrom Doubles.ln).2 h
      have found : findings.tree.walkFrom 0 = .ok walk := told
      rw [h] at ended
      dsimp only [Except.toOption, Option.bind_some] at ended
      rw [found] at ended
      obtain ⟨actions, rollouts⟩ := Prod.mk.inj (Option.some.inj ended)
      exact ⟨findings, planner', walk, rfl, found, actions, rollouts, reached⟩

end Parcel

end HorizonUct
