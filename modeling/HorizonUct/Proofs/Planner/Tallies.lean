import HorizonUct.Proofs.Planner.Conservation
import HorizonUct.Proofs.Tree.Census

/-!
# Tallies agree with the tree

A search counts its rollouts, keeps the most actions that one of them took, and
leaves its source where the draws have taken it. None of this is read off the
tree, and yet it can be: a rollout passes the root once and draws once at each
action that it passes, and the last of these is as deep as it has steps.
-/

namespace HorizonUct

namespace DrawSource

variable {υ α : Type} [DrawSource υ α]

/-- Draws may be taken in two turns. -/
theorem take_add (first second : Nat) (source : υ) :
    (take (α := α) (first + second) source).2 =
      (take (α := α) second (take (α := α) first source).2).2 := by
  induction first generalizing source with
  | zero => rw [Nat.zero_add, take]
  | succ first ih =>
    rw [Nat.succ_add]
    exact ih (next (α := α) source).2

end DrawSource

/-- Replayed draws are counted as they are taken. -/
theorem Replay.taken_take {α : Type} (count : Nat) (source : Replay α) :
    (DrawSource.take (α := α) count source).2.taken = source.taken + count := by
  induction count generalizing source with
  | zero => rfl
  | succ count ih =>
    have onward := ih (DrawSource.next (α := α) source).2
    rw [Replay.next_taken] at onward
    exact onward.trans (by omega)

namespace Tree

variable {S α : Type} [Scalar α] {tree : Tree S α} {rules : Rules S α} {left id rest : Nat}
variable {way : List (Nat × α)} {depth : Nat}

/-- An action on a route has the actions that the route does not take below it. -/
theorem Route.depth_le (route : Route rules tree left id way rest) (linked : tree.Linked)
    (depthAt : tree.DepthAt id depth) : ∀ other ∈ way.map Prod.fst, tree.isAction other = true →
      ∃ depth', tree.DepthAt other depth' ∧ depth' + 1 + rest ≤ depth + left := by
  induction route generalizing depth with
  | horizon => nofun
  | stop found _ role =>
    intro other passed action
    rw [List.mem_singleton.mp passed, isAction_eq found, role] at action
    cases action
  | pick found _ role below _ ih =>
    intro other passed action
    have child := depthAt.atChild linked found below
    rw [role, if_pos rfl] at child
    rcases List.mem_cons.mp passed with rfl | passed
    · rw [isAction_eq found, role] at action
      cases action
    · exact ih child other passed action
  | act found _ role _ _ below onward ih =>
    intro other passed action
    have child := depthAt.atChild linked found below
    rw [role, Role.isDecision, if_neg Bool.false_ne_true] at child
    rcases List.mem_cons.mp passed with rfl | passed
    · have counted := onward.countP_isAction
      exact ⟨depth, depthAt, by omega⟩
    · obtain ⟨depth', there, bound⟩ := ih child other passed action
      exact ⟨depth', there, by omega⟩

/-- The last action on a route, if there is any, has just these below it. -/
theorem Route.reaches (route : Route rules tree left id way rest) (linked : tree.Linked)
    (depthAt : tree.DepthAt id depth) (some : rest < left) :
    ∃ other ∈ way.map Prod.fst, tree.isAction other = true ∧
      ∃ depth', tree.DepthAt other depth' ∧ depth' + 1 + rest = depth + left := by
  induction route generalizing depth with
  | horizon | stop => omega
  | pick found _ role below _ ih =>
    have child := depthAt.atChild linked found below
    rw [role, if_pos rfl] at child
    obtain ⟨other, passed, last⟩ := ih child some
    exact ⟨other, List.mem_cons_of_mem _ passed, last⟩
  | @act left id below rest _ _ _ _ way found _ role _ _ named onward ih =>
    have child := depthAt.atChild linked found named
    rw [role, Role.isDecision, if_neg Bool.false_ne_true] at child
    by_cases more : rest < left
    · obtain ⟨other, passed, action, depth', there, deep⟩ := ih child more
      exact ⟨other, List.mem_cons_of_mem _ passed, action, depth', there, by omega⟩
    · have here := isAction_eq found
      rw [role] at here
      have counted := onward.countP_isAction
      exact ⟨id, List.mem_cons_self, here, depth, depthAt, by omega⟩

end Tree

namespace Progress

variable {σ υ S α : Type} [Navigator σ S α] {progress last : Progress σ υ S α}

/-- Getting ready to start takes no draw. -/
theorem Approach.source {start : Nat} {result : Except (Failure α) Unit}
    (approach : Approach progress start result last) : last.source = progress.source := by
  cases approach <;> rfl

/-- Arriving takes no draw. -/
theorem Arrival.source [Scalar α] {id : Nat} {result : Except (Failure α) Unit}
    (arrival : Arrival progress id result last) : last.source = progress.source := by
  cases arrival <;> rfl

variable [Scalar α] [DrawSource υ α] {rules : Rules S α} {bias : α}

/-- A descent that comes to its end takes one draw for each action. -/
theorem Descends.source {left id rest : Nat} {way : List (Nat × α)}
    (descent : Descends rules bias left id progress way last (.ok rest)) : ∃ steps,
      steps + rest = left ∧ last.source = (DrawSource.take (α := α) steps progress.source).2 := by
  generalize hr : (.ok rest : Except (Failure α) Nat) = result at descent
  induction descent with
  | horizon =>
    cases hr
    exact ⟨0, rfl, rfl⟩
  | endless | refused | broken => cases hr
  | stop arrival departure =>
    cases hr
    cases departure with
    | stop =>
      have same := arrival.source
      exact ⟨0, Nat.zero_add _, same⟩
  | pick arrival departure _ ih =>
    obtain ⟨steps, sum, drawn⟩ := ih hr
    cases departure with
    | pick =>
      have same := arrival.source
      exact ⟨steps, sum, drawn.trans
        (congrArg (fun source => (DrawSource.take (α := α) steps source).2) same)⟩
  | act arrival departure _ ih =>
    obtain ⟨steps, sum, drawn⟩ := ih hr
    cases departure with
    | act found role earned draw =>
      obtain ⟨-, -, next⟩ := Tree.draw_eq_ok draw found
      have same := next.trans (congrArg (fun source => (DrawSource.next (α := α) source).2)
        arrival.source)
      exact ⟨steps + 1, by omega, drawn.trans
        (congrArg (fun source => (DrawSource.take (α := α) steps source).2) same)⟩

/-- A rollout that is made takes one draw for each of its steps. -/
theorem Rolls.source {start horizon : Nat} {rollout : Rollout α}
    (rolls : Rolls rules progress start horizon bias (.ok rollout) last) :
    last.source = (DrawSource.take (α := α) rollout.steps progress.source).2 := by
  cases rolls with
  | idle => rfl
  | @made _ _ _ left _ approach descent =>
    obtain ⟨steps, sum, drawn⟩ := descent.source
    rw [approach.source] at drawn
    have same : horizon - left = steps := by omega
    dsimp only
    rw [same]
    exact drawn

end Progress

section Accounts

variable {σ υ S α : Type} [Navigator σ S α] [Scalar α] [DrawSource υ α]

/-- What a batch has counted is what its rollouts come to: there are as many of
them, the longest is among them, they can be retraced, and the source stands
where their draws have left it. -/
structure Batch.Accounts (rules : Rules S α) (horizon : Nat) (source : υ)
    (rollouts : List (Rollout α)) (batch : Batch σ υ S α) : Prop where
  /-- All rollouts are counted. -/
  counted : batch.rollouts = rollouts.length
  /-- None took more actions than the longest. -/
  steps_le : ∀ rollout ∈ rollouts, rollout.steps ≤ batch.longest
  /-- One took as many. -/
  attained : 0 < batch.longest → ∃ rollout ∈ rollouts, rollout.steps = batch.longest
  /-- Each of them has taken its way through the tree. -/
  retraced : ∀ rollout ∈ rollouts, batch.progress.tree.Retraces rules horizon 0 rollout
  /-- Each of them took a draw for each of its steps. -/
  source : batch.progress.source =
    (DrawSource.take (α := α) (rollouts.map Rollout.steps).sum source).2

namespace Planner

variable {planner : Planner σ υ S α} {settings : Settings α} {clock : Nat → Nat}
variable {kind : σ → Prop} {at_ : σ → S → Prop} {batch : Batch σ υ S α}

/-- At each moment of a search the rollouts that explored its tree account for
what has been counted. -/
theorem Passes.accounts (tracks : Tracks kind at_) (kept : kind planner.navigator)
    (passes : planner.Passes settings clock batch) : kind batch.progress.navigator ∧
      settings.check = .ok () ∧ batch.rollouts ≤ settings.budget ∧ ∃ root rollouts,
        Navigator.start planner.navigator = .ok root ∧
        batch.progress.tree.Explored kind root planner.rules settings.horizon rollouts ∧
        batch.Accounts planner.rules settings.horizon planner.source rollouts := by
  induction passes with
  | planted h =>
    obtain ⟨checked, root, start, rfl⟩ := plant_eq_ok h
    exact ⟨kept, checked, Nat.zero_le _, root, [], start, Tree.explored_ofRoot,
      rfl, nofun, fun some => absurd some (Nat.lt_irrefl 0), nofun, rfl⟩
  | @rolled batch _ _ left turn ih =>
    obtain ⟨admitted, checked, -, root, rollouts, start, explored, accounts⟩ := ih
    rcases Batch.turn_eq_ok turn with ⟨idle, -⟩ | ⟨-, rollout, progress, event, made, rfl⟩
    · cases idle
    · have rolls := batch.progress.rolls_rollout planner.rules 0 settings.horizon
        (settings.bias.weight batch.progress.tree.root.mean)
      rw [made] at rolls
      have layered := explored.grown.layered
      have admittedNext := (rolls.steps tracks layered admitted).2
      have onward := explored.rolled admitted made
      refine ⟨admittedNext, checked, left, root, rollouts ++ [rollout], start, onward,
        ?_, ?_, ?_, ?_, ?_⟩
      · rw [List.length_append, ← accounts.counted]
        rfl
      · intro other mem
        dsimp only
        rcases List.mem_append.mp mem with mem | mem
        · exact Nat.le_trans (accounts.steps_le other mem) (Nat.le_max_left _ _)
        · rw [List.mem_singleton.mp mem]
          exact Nat.le_max_right _ _
      · intro some
        rcases Nat.le_total batch.longest rollout.steps with longer | shorter
        · exact ⟨rollout, List.mem_append_right _ (List.mem_singleton_self _),
            (Nat.max_eq_right longer).symm⟩
        · dsimp only at some ⊢
          rw [Nat.max_eq_left shorter] at some ⊢
          obtain ⟨other, mem, same⟩ := accounts.attained some
          exact ⟨other, List.mem_append_left _ mem, same⟩
      · intro other mem
        rcases List.mem_append.mp mem with mem | mem
        · exact (accounts.retraced other mem).extends rolls.changes.extends
        · rw [List.mem_singleton.mp mem]
          exact rolls.retraces layered
      · have drawn := rolls.source
        rw [accounts.source, ← DrawSource.take_add] at drawn
        rw [List.map_append, List.sum_append]
        exact drawn

end Planner

end Accounts

namespace Tree

section Deepest

variable {σ S α : Type} [Navigator σ S α] [Scalar α] {tree : Tree S α} {rules : Rules S α}
variable {kind : σ → Prop} {root : S} {horizon id depth : Nat} {node : Node S α}
variable {rollouts : List (Rollout α)}

/-- In an explored tree the visits of actions are the actions that were passed. -/
theorem Explored.actionVisits (explored : tree.Explored kind root rules horizon rollouts) :
    tree.actionVisits = (passages rollouts).countP tree.isAction :=
  actionVisits_eq_countP fun found => explored.visits found

/-- An action that a rollout has passed is not deeper than the rollout has steps. -/
theorem Retraces.depth_lt {rollout : Rollout α}
    (retraces : tree.Retraces rules horizon 0 rollout) (linked : tree.Linked)
    (passed : id ∈ rollout.path.map Prod.fst) (action : tree.isAction id = true)
    (counted : tree.actionsBefore id = .ok depth) : depth + 1 ≤ rollout.steps := by
  obtain ⟨way, rest, route, path, -, steps⟩ := retraces
  rw [path, fst_returnsOf] at passed
  obtain ⟨depth', depthAt, bound⟩ := route.depth_le linked linked.depthAt_root id passed action
  rw [depthAt.actionsBefore, Except.ok.injEq] at counted
  omega

/-- A rollout that has steps has passed an action that is as deep. -/
theorem Retraces.deepest {rollout : Rollout α}
    (retraces : tree.Retraces rules horizon 0 rollout) (linked : tree.Linked)
    (some : 0 < rollout.steps) : ∃ id ∈ rollout.path.map Prod.fst, tree.isAction id = true ∧
      ∃ depth, tree.actionsBefore id = .ok depth ∧ depth + 1 = rollout.steps := by
  obtain ⟨way, rest, route, path, -, steps⟩ := retraces
  obtain ⟨id, passed, action, depth, depthAt, deep⟩ :=
    route.reaches linked linked.depthAt_root (by omega)
  rw [path, fst_returnsOf]
  exact ⟨id, passed, action, depth, depthAt.actionsBefore, by omega⟩

end Deepest

variable {α : Type} [Scalar α] {mdp : Mdp α} {tree : Tree Nat α} {rules : Rules Nat α}
variable {horizon : Nat} {rollouts : List (Rollout α)}

/-- Rollouts that can be retraced from the root of a tree that unrolls a table
have passed the root once each. -/
theorem Faithful.count_root (faithful : tree.Faithful mdp) (some : 0 < horizon)
    (retraced : ∀ rollout ∈ rollouts, tree.Retraces rules horizon 0 rollout) :
    (passages rollouts).count 0 = rollouts.length := by
  have once : ∀ rollout ∈ rollouts, (rollout.path.map Prod.fst).count 0 = 1 := by
    intro rollout mem
    have shaped := faithful.shaped some (retraced rollout mem)
    have distinct := shaped.ascends.imp Nat.ne_of_lt
    exact List.count_eq_one_of_mem distinct (List.mem_of_head? shaped.starts)
  rw [passages, List.count_flatMap]
  exact (congrArg List.sum (List.map_congr_left once)).trans (by simp)

/-- Rollouts that can be retraced have as many steps in all as they have passed actions. -/
theorem sum_steps_eq_countP {S : Type} {tree : Tree S α} {rules : Rules S α} {start : Nat}
    (retraced : ∀ rollout ∈ rollouts, tree.Retraces rules horizon start rollout) :
    (rollouts.map Rollout.steps).sum = (passages rollouts).countP tree.isAction := by
  rw [passages, List.countP_flatMap]
  exact congrArg List.sum (List.map_congr_left fun rollout mem => (retraced rollout mem).steps_eq)

end Tree

namespace Batch

variable {σ υ S α : Type} [Scalar α] [DrawSource υ α] {rules : Rules S α} {horizon : Nat}
variable {source : υ} {rollouts : List (Rollout α)} {batch : Batch σ υ S α}

/-- The longest rollout fits the horizon. -/
theorem Accounts.longest_le (accounts : batch.Accounts rules horizon source rollouts) :
    batch.longest ≤ horizon := by
  rcases Nat.eq_zero_or_pos batch.longest with none | some
  · omega
  · obtain ⟨rollout, mem, same⟩ := accounts.attained some
    obtain ⟨way, rest, -, -, -, steps⟩ := accounts.retraced rollout mem
    omega

variable [Navigator σ S α] {kind : σ → Prop} {root : S}

/-- A visited action is not deeper than the longest rollout. -/
theorem Accounts.deeper_le (accounts : batch.Accounts rules horizon source rollouts)
    (explored : batch.progress.tree.Explored kind root rules horizon rollouts) {id depth : Nat}
    {node : Node S α} (found : batch.progress.tree.nodes[id]? = some node)
    (role : node.role.isDecision = false) (visited : 0 < node.visits)
    (counted : batch.progress.tree.actionsBefore id = .ok depth) : depth + 1 ≤ batch.longest := by
  rw [explored.visits found, List.count_pos_iff] at visited
  obtain ⟨rollout, mem, passed⟩ := List.mem_flatMap.mp visited
  have action := Tree.isAction_eq found
  rw [role] at action
  have deep := (accounts.retraced rollout mem).depth_lt explored.grown.layered.toLinked passed
    action counted
  exact Nat.le_trans deep (accounts.steps_le rollout mem)

/-- If the longest rollout took an action, then a visited one is as deep. -/
theorem Accounts.deepest (accounts : batch.Accounts rules horizon source rollouts)
    (explored : batch.progress.tree.Explored kind root rules horizon rollouts)
    (some : 0 < batch.longest) : ∃ id node depth, batch.progress.tree.nodes[id]? = .some node ∧
      node.role.isDecision = false ∧ 0 < node.visits ∧
        batch.progress.tree.actionsBefore id = .ok depth ∧ depth + 1 = batch.longest := by
  obtain ⟨rollout, mem, same⟩ := accounts.attained some
  rw [← same] at some ⊢
  obtain ⟨id, passed, action, depth, counted, deep⟩ :=
    (accounts.retraced rollout mem).deepest explored.grown.layered.toLinked some
  obtain ⟨node, found⟩ := Tree.exists_of_lt (Tree.lt_size_of_isAction action)
  have role := Tree.isAction_eq found
  rw [action, eq_comm, Bool.not_eq_true'] at role
  have visited : 0 < (passages rollouts).count id :=
    List.count_pos_iff.mpr (List.mem_flatMap.mpr ⟨rollout, mem, passed⟩)
  exact ⟨id, node, depth, found, role, explored.visits found ▸ visited, counted, deep⟩

end Batch

/-- What the tally of a search over a table and the draws that it has taken say
of the tree that it returns. -/
structure Planner.Audited {α : Type} [Scalar α]
    (planner planner' : Planner (Cursor α) (Replay α) Nat α) (clock : Nat → Nat)
    (horizon budget : Nat) (findings : Findings Nat α) : Prop where
  /-- Each rollout is a visit of the root. -/
  rollouts_eq : findings.tally.rollouts = findings.tree.root.visits
  /-- There are no more rollouts than the budget allows. -/
  rollouts_le : findings.tally.rollouts ≤ budget
  /-- There are as many unless the limit on time was used up. -/
  rollouts_all : findings.tally.rollouts = budget ∨ ∃ limit,
    planner.settings.timeLimit = some limit ∧ limit ≤ clock findings.tally.rollouts
  /-- All nodes are counted. -/
  nodes_eq : findings.tally.nodes = findings.tree.size
  /-- Each of them is a state or an action. -/
  kinds : findings.tally.nodes = findings.tally.decisionNodes + findings.tally.chanceNodes
  /-- Besides the root there is a node for each choice of an expanded state and
  for each outcome of an expanded action. -/
  fanOut : findings.tally.nodes = 1 +
    ((List.range findings.tree.size).map (findings.tree.fanOut planner.navigator.mdp)).sum
  /-- No rollout took more actions than the horizon allows. -/
  longest_le : findings.tally.longest ≤ horizon
  /-- No visited action is deeper than the longest rollout. -/
  deeper_le : ∀ {id depth : Nat} {node : Node Nat α}, findings.tree.nodes[id]? = some node →
    node.role.isDecision = false → 0 < node.visits → findings.tree.actionsBefore id = .ok depth →
      depth + 1 ≤ findings.tally.longest
  /-- If any rollout took an action, then a visited one is as deep. -/
  deepest : 0 < findings.tally.longest → ∃ id node depth, findings.tree.nodes[id]? = some node ∧
    node.role.isDecision = false ∧ 0 < node.visits ∧
      findings.tree.actionsBefore id = .ok depth ∧ depth + 1 = findings.tally.longest
  /-- There was a draw for each visit of an action. -/
  taken_eq : planner'.source.taken = planner.source.taken + findings.tree.actionVisits
  /-- There was a draw for each step of the rollouts that explored the tree. -/
  steps_eq : ∃ root rollouts, findings.tree.Explored
      (fun cursor : Cursor α => cursor.mdp = planner.navigator.mdp) root planner.rules horizon
      rollouts ∧
    findings.tally.rollouts = rollouts.length ∧
      findings.tree.actionVisits = (rollouts.map Rollout.steps).sum

/-- What every search over a table that comes to its end tells about itself
agrees with the tree that it returns. -/
theorem Planner.audited_of_search {α : Type} [Scalar α]
    {planner planner' : Planner (Cursor α) (Replay α) Nat α} {clock : Nat → Nat}
    {horizon budget : Nat} {findings : Findings Nat α}
    (h : planner.searchWithin clock horizon budget = (.ok findings, planner')) :
    planner.Audited planner' clock horizon budget findings := by
  obtain ⟨moment, journal, passes, rfl, rfl, end_⟩ := ends_of_search h
  obtain ⟨-, checked, within, root, rollouts, -, explored, accounts⟩ :=
    passes.accounts (Cursor.tracks planner.navigator.mdp) rfl
  have some : 0 < horizon := (Settings.of_check checked).1
  have faithful := explored.grown.faithful
  have linked := faithful.layered.toLinked
  -- every tally comes down to the passages
  have visits := explored.actionVisits
  have steps := Tree.sum_steps_eq_countP accounts.retraced
  refine ⟨?_, within, end_, rfl, ?_, faithful.size_eq_fanOut, ?_, ?_, ?_, ?_, ?_⟩
  · rw [explored.visits (Tree.getElem?_root _), faithful.count_root some accounts.retraced]
    exact accounts.counted
  · exact (Tree.decisionNodes_add_chanceNodes _).symm
  · exact accounts.longest_le
  · exact fun found role visited counted => accounts.deeper_le explored found role visited counted
  · exact accounts.deepest explored
  · rw [visits, ← steps, ← Replay.taken_take, ← accounts.source]
    rfl
  · exact ⟨root, rollouts, explored, accounts.counted, visits.trans steps.symm⟩

namespace Fork

/-- Four rollouts of at most two actions are accounted for. -/
theorem audited_four : ∃ findings planner',
    planner.searchWithin (fun _ => 0) 2 4 = (.ok findings, planner') ∧
      planner.Audited planner' (fun _ => 0) 2 4 findings := by
  have ended : (planner.searchWithin (fun _ => 0) 2 4).1.isOk = true := by decide +kernel
  rcases h : planner.searchWithin (fun _ => 0) 2 4 with ⟨_ | findings, planner'⟩
  · rw [h] at ended
    cases ended
  · exact ⟨findings, planner', rfl, Planner.audited_of_search h⟩

end Fork

end HorizonUct
