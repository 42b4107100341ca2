import HorizonUct.Proofs.Rollout.Additions
import HorizonUct.Proofs.Rollout.Shape

/-!
# Returns along a path

What a node of a path returns is what the next one returns and what it earns
itself, and nought takes the place of the next one at the end. Only actions
earn anything, and they earn it in the state above them, whatever state they
lead to. Each node folds its own return into its mean. Nothing is assumed of
the arithmetic: the sums are those that the rollout forms, in its order.
-/

namespace HorizonUct

section Sums

variable {α : Type} [Scalar α]

/-- A node of a way returns what is returned from the next one on and what it
has earned itself. -/
theorem getElem?_returnsOf {way : List (Nat × α)} {place id : Nat} {value : α}
    (h : (returnsOf way)[place]? = some (id, value)) : ∃ earned,
      way[place]? = some (id, earned) ∧ value = totalOf (way.drop (place + 1)) + earned := by
  induction way generalizing place with
  | nil => cases h
  | cons entry way ih =>
    cases place with
    | zero =>
      cases h
      exact ⟨entry.2, rfl, rfl⟩
    | succ place => exact ih h

/-- So it returns all that is earned from it on. -/
theorem eq_totalOf_drop {way : List (Nat × α)} {place id : Nat} {value : α}
    (h : (returnsOf way)[place]? = some (id, value)) : value = totalOf (way.drop place) := by
  obtain ⟨earned, there, sum⟩ := getElem?_returnsOf h
  rw [List.drop_eq_getElem?_toList_append, there]
  exact sum

/-- Behind the last node nothing is earned. -/
theorem getLast?_returnsOf {way : List (Nat × α)} {id : Nat} {value : α}
    (h : (returnsOf way).getLast? = some (id, value)) :
    ∃ earned, (id, earned) ∈ way ∧ value = Scalar.zero + earned := by
  have length := congrArg List.length (fst_returnsOf way)
  rw [List.length_map, List.length_map] at length
  rw [List.getLast?_eq_getElem?] at h
  obtain ⟨earned, there, sum⟩ := getElem?_returnsOf h
  have none : way.drop ((returnsOf way).length - 1 + 1) = [] :=
    List.drop_eq_nil_of_le (by omega)
  rw [none] at sum
  exact ⟨earned, List.mem_of_getElem? there, sum⟩

end Sums

namespace Tree

variable {S α : Type} [Scalar α]

/-- What a node yields when a rollout passes: a state nothing, and an action the
reward of its label in the state above it. -/
inductive Yields (rules : Rules S α) (tree : Tree S α) (id : Nat) : α → Prop where
  /-- A state earns nothing. -/
  | nothing {node : Node S α} {state : S} (found : tree.nodes[id]? = some node)
      (role : node.role = .decision state) : Yields rules tree id Scalar.zero
  /-- An action is rewarded in the state above it. -/
  | reward {node parent : Node S α} {up index : Nat} {label : String} {state : S} {earned : α}
      (found : tree.nodes[id]? = some node) (role : node.role = .chance index label)
      (above : node.parent = some up) (there : tree.nodes[up]? = some parent)
      (owner : parent.role = .decision state) (told : rules.reward state label = .ok earned) :
      Yields rules tree id earned

variable {tree : Tree S α} {rules : Rules S α} {left id rest : Nat} {way : List (Nat × α)}

/-- A state earns nothing. -/
theorem yields_of_isDecision {node : Node S α} (found : tree.nodes[id]? = some node)
    (role : node.role.isDecision = true) : tree.Yields rules id Scalar.zero := by
  obtain ⟨state, role⟩ := Role.eq_decision role
  exact .nothing found role

/-- What is told of the earnings of an action is the reward in the state above it. -/
theorem yields_of_earned {node : Node S α} {index : Nat} {label : String} {reward : α}
    (found : tree.nodes[id]? = some node) (role : node.role = .chance index label)
    (earned : tree.earned rules id label = .ok reward) : tree.Yields rules id reward := by
  obtain ⟨state, owner, told⟩ := earned_eq_ok_iff.mp earned
  obtain ⟨node', found', decides | ⟨-, up, parent, above, there, owner⟩⟩ := stateOf_eq_some owner
  · rw [found, Option.some.injEq] at found'
    rw [← found', role] at decides
    cases decides
  · rw [found, Option.some.injEq] at found'
    exact .reward found role (found' ▸ above) there owner told

/-- On a route each node has what it earns. -/
theorem Route.yields (route : Route rules tree left id way rest) :
    ∀ entry ∈ way, tree.Yields rules entry.1 entry.2 := by
  induction route with
  | horizon => nofun
  | stop found _ role _ =>
    intro entry mem
    rw [List.mem_singleton.mp mem]
    exact yields_of_isDecision found role
  | pick found _ role _ _ ih =>
    intro entry mem
    rcases List.mem_cons.mp mem with rfl | mem
    · exact yields_of_isDecision found role
    · exact ih entry mem
  | act found _ role earned _ _ _ ih =>
    intro entry mem
    rcases List.mem_cons.mp mem with rfl | mem
    · exact yields_of_earned found role earned
    · exact ih entry mem

end Tree

/-- How the returns along the path of a rollout come about, given the trees
before and after it. -/
structure Rollout.AddsUp {S α : Type} [Scalar α] (rules : Rules S α) (before after : Tree S α)
    (rollout : Rollout α) : Prop where
  /-- The total is what the first node returns. -/
  total : rollout.path.head?.map Prod.snd = some rollout.total
  /-- A node returns what the next one returns and what it earns itself. -/
  onward : ∀ {place id next : Nat} {value rest : α}, rollout.path[place]? = some (id, value) →
    rollout.path[place + 1]? = some (next, rest) →
      ∃ earned, after.Yields rules id earned ∧ value = rest + earned
  /-- The last one returns nought and what it earns itself. -/
  last : ∀ {id : Nat} {value : α}, rollout.path.getLast? = some (id, value) →
    ∃ earned, after.Yields rules id earned ∧ value = Scalar.zero + earned
  /-- Each node folds what it returns into its mean, as one visit more. -/
  folded : ∀ {id : Nat} {value : α}, (id, value) ∈ rollout.path →
    ∃ node, after.nodes[id]? = some node ∧ node.visits = (before.learnt id).1 + 1 ∧
      node.mean = foldMean node.visits (before.learnt id).2 value

/-- What a rollout that is made leaves behind. -/
theorem Progress.Rolls.aftermath {σ υ S α : Type} [Navigator σ S α] [Scalar α] [DrawSource υ α]
    {progress last : Progress σ υ S α} {rules : Rules S α} {start horizon : Nat} {bias : α}
    {rollout : Rollout α} (rolls : Rolls rules progress start horizon bias (.ok rollout) last)
    (linked : progress.tree.Linked) : progress.tree.Aftermath last.tree rollout.path := by
  obtain ⟨once, learnt⟩ := rolls.learnt_of_ok linked
  refine .of_learnt rolls.changes.appends once (fun id passed => ?_) learnt
  obtain ⟨node, found, -⟩ := rolls.passed id passed
  exact Tree.lt_size found

/-- What can be retraced, and was learnt from, adds up. -/
theorem Tree.Retraces.addsUp {S α : Type} [Scalar α] {before after : Tree S α} {rules : Rules S α}
    {horizon start : Nat} {rollout : Rollout α}
    (retraces : after.Retraces rules horizon start rollout) (some : 0 < horizon)
    (aftermath : before.Aftermath after rollout.path) : rollout.AddsUp rules before after := by
  obtain ⟨way, rest, route, path, total, -⟩ := retraces
  have yields := route.yields
  refine ⟨?_, fun {place id next value rest} here there => ?_, fun {id value} here => ?_,
    aftermath.passed⟩
  · obtain ⟨earned, later, rfl⟩ := route.starts some
    rw [path, total]
    rfl
  · rw [path] at here there
    obtain ⟨earned, passed, sum⟩ := getElem?_returnsOf here
    rw [← eq_totalOf_drop there] at sum
    exact ⟨earned, yields _ (List.mem_of_getElem? passed), sum⟩
  · rw [path] at here
    obtain ⟨earned, passed, sum⟩ := getLast?_returnsOf here
    exact ⟨earned, yields _ passed, sum⟩

/-- On every tree that was grown by rollouts, and for every rollout of at least
one action that is made on it, the returns along the path add up from its end,
each node learns its own, and the rollout is worth the first of them. -/
theorem Progress.addsUp_of_rollout {σ υ S α : Type} [Navigator σ S α] [Scalar α] [DrawSource υ α]
    {kind : σ → Prop} {root : S} {outcomes : List (Except (Failure α) (Rollout α))}
    {progress last : Progress σ υ S α} {rules : Rules S α} {start horizon : Nat} {bias : α}
    {rollout : Rollout α} (grown : Tree.Grown kind root outcomes progress.tree)
    (some : 0 < horizon)
    (made : progress.rollout rules start horizon bias = (.ok rollout, last)) :
    rollout.AddsUp rules progress.tree last.tree := by
  have rolls := progress.rolls_rollout rules start horizon bias
  rw [made] at rolls
  have layered := grown.layered
  exact (rolls.retraces layered).addsUp some (rolls.aftermath layered.toLinked)

namespace Fork

/-- After the three rollouts one more from the root, of two actions. -/
def again : Except (Failure ℚ) (Rollout ℚ) × Progress (Cursor ℚ) (Replay ℚ) Nat ℚ :=
  side.2.rollout planner.rules 0 2 0

/-- Its toss earns one, in the state above it, although the state that it leads
to would give two. -/
theorem addsUp_again : ∃ rollout, again.1 = .ok rollout ∧
    rollout.path = [(0, 3), (1, 3), (2, 2), (4, 2)] ∧
      rollout.AddsUp planner.rules side.2.tree again.2.tree := by
  have ended : again.1.toOption.map Rollout.path = some [(0, 3), (1, 3), (2, 2), (4, 2)] := by
    decide +kernel
  rcases h : again with ⟨_ | rollout, last⟩
  · rw [h] at ended
    cases ended
  · rw [h] at ended
    exact ⟨rollout, rfl, Option.some.inj ended,
      Progress.addsUp_of_rollout grown_short_long_side Nat.two_pos h⟩

end Fork

end HorizonUct
