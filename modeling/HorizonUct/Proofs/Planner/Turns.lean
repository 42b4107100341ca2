import HorizonUct.Proofs.Doubles
import HorizonUct.Proofs.Planner.Conservation
import HorizonUct.Proofs.Rollout.Preference

/-!
# Actions are tried in turn as long as scores are finite

Exploring prefers an action that has never been tried, so no action is tried
twice before all have been tried once. It recognises such an action by a score
beyond every number, though, and the score of an action that was tried can be
that great as well. If that action comes first, then it is tried again. This
is the only way to get out of turn.
-/

namespace HorizonUct

namespace Tree

variable {S α : Type} {tree new : Tree S α} {id kid child visits : Nat} {bias : α}
variable {node : Node S α}

/-- Above a node that was there before there was the same parent, with the same children. -/
theorem Extends.family {old : Node S α} (h : tree.Extends new) (layered : tree.Layered)
    (linked : new.Linked) (found : new.nodes[id]? = some node) (below : kid ∈ node.children)
    (there : tree.nodes[kid]? = some old) : ∃ before, tree.nodes[id]? = some before ∧
      before.role = node.role ∧ before.children = node.children := by
  obtain ⟨after, ha, parent, ahead⟩ := linked.child found below
  obtain ⟨after', ha', kept⟩ := h there
  rw [ha, Option.some.injEq] at ha'
  subst ha'
  rw [kept.parent] at parent
  obtain ⟨before, hb⟩ := exists_of_lt (ahead.trans (lt_size there))
  have child := (layered.mem_children hb kid).mpr ⟨old, there, parent⟩
  obtain ⟨node', hn, kept'⟩ := h hb
  rw [found, Option.some.injEq] at hn
  subst hn
  exact ⟨before, hb, kept'.role.symm,
    (kept'.children (layered.expanded hb (List.ne_nil_of_mem child))).symm⟩

variable [Scalar α]

/-- How often a node has been visited. -/
def visitsAt (tree : Tree S α) (id : Nat) : Nat := (tree.learnt id).1

/-- As long as an action has not been tried, no other one in the same state has
been tried twice. -/
def TriesInTurn (tree : Tree S α) : Prop :=
  ∀ ⦃id : Nat⦄ ⦃node : Node S α⦄, tree.nodes[id]? = some node → node.role.isDecision = true →
    ∀ untried ∈ node.children, tree.visitsAt untried = 0 →
      ∀ other ∈ node.children, tree.visitsAt other < 2

/-- The next visit of a state goes to an action that has been tried, although
another one has not: up to that one all have been tried, and its score with the
visit counted is beyond every number. -/
inductive Tempts (tree : Tree S α) (bias : α) (id : Nat) : Prop where
  /-- The children of the state are those before the action, itself and those after. -/
  | intro {node : Node S α} {before after : List Nat} {tried : Nat}
      (found : tree.nodes[id]? = some node) (role : node.role.isDecision = true)
      (children : node.children = before ++ tried :: after)
      (early : ∀ kid ∈ before, 0 < tree.visitsAt kid) (again : 0 < tree.visitsAt tried)
      (urgent : (tree.scoreAt (node.visits + 1) bias tried).isUrgent = true)
      (late : ∃ kid ∈ after, tree.visitsAt kid = 0) : Tempts tree bias id

/-- Only a node that is there has been visited. -/
theorem exists_of_visitsAt (h : 0 < tree.visitsAt id) : ∃ node, tree.nodes[id]? = some node := by
  cases hn : tree.nodes[id]? with
  | some node => exact ⟨node, rfl⟩
  | none =>
    rw [visitsAt, learnt, hn] at h
    cases h

/-- What has not been tried is to be tried at once. -/
theorem scoreAt_of_untried (h : tree.visitsAt kid = 0) :
    tree.scoreAt visits bias kid = .untried := by
  unfold visitsAt learnt at h
  unfold scoreAt
  cases hn : tree.nodes[kid]? <;> simp_all [Node.score, Option.elim]

/-- Where no value is beyond all numbers, only what has not been tried is to be tried at once. -/
theorem visitsAt_of_isUrgent (finite : ∀ value : α, Scalar.isFinite value = true)
    (h : (tree.scoreAt visits bias kid).isUrgent = true) : tree.visitsAt kid = 0 := by
  unfold scoreAt at h
  unfold visitsAt learnt
  cases hn : tree.nodes[kid]? with
  | none => rfl
  | some node =>
    by_contra some
    rw [hn, Option.elim_some, Node.score, if_neg some, Score.isUrgent, Scalar.isUnbounded,
      finite] at h
    cases h

/-- A tempting node is a state with actions. -/
theorem Tempts.state (tempts : tree.Tempts bias id) : ∃ node, tree.nodes[id]? = some node ∧
    node.role.isDecision = true ∧ node.children ≠ [] := by
  obtain @⟨node, before, after, tried, found, role, children, -, -, -, -⟩ := tempts
  refine ⟨node, found, role, ?_⟩
  rw [children]
  exact List.append_ne_nil_of_right_ne_nil _ (List.cons_ne_nil _ _)

/-- A state is tempting exactly if it prefers an action that has been tried,
although another one has not. -/
theorem Linked.tempts_iff (linked : tree.Linked) (found : tree.nodes[id]? = some node)
    (role : node.role.isDecision = true) (below : child ∈ node.children)
    (picked : tree.preferred (node.visits + 1) bias node.children = some child) :
    tree.Tempts bias id ↔
      0 < tree.visitsAt child ∧ ∃ idle ∈ node.children, tree.visitsAt idle = 0 := by
  constructor
  · rintro @⟨node', before, after, tried, found', -, children, early, again, urgent, late⟩
    rw [found, Option.some.injEq] at found'
    subst found'
    have split : node.children = (before ++ [tried]) ++ after := by
      rw [children, List.append_assoc, List.singleton_append]
    rw [split] at picked
    obtain ⟨first, -⟩ := preferred_append
      (List.mem_append_right _ (List.mem_singleton_self tried)) urgent picked
    obtain ⟨idle, hi, none⟩ := late
    refine ⟨?_, idle, split ▸ List.mem_append_right _ hi, none⟩
    rcases List.mem_append.mp first with first | first
    · exact early child first
    · rw [List.mem_singleton.mp first]
      exact again
  · rintro ⟨again, idle, hi, none⟩
    have untried : ∀ kid : Nat, tree.visitsAt kid = 0 →
        (tree.scoreAt (node.visits + 1) bias kid).isUrgent = true := by
      intro kid none
      rw [scoreAt_of_untried none]
      rfl
    have urgent := (preferred_append hi (untried idle none)
      (by rw [List.append_nil]; exact picked)).2
    obtain ⟨before, after, split⟩ := List.append_of_mem below
    have early : ∀ kid ∈ before, 0 < tree.visitsAt kid := by
      intro kid hk
      by_contra never
      rw [split] at picked
      obtain ⟨twice, -⟩ := preferred_append hk (untried kid (by omega)) picked
      have distinct := (linked.sorted found).imp Nat.ne_of_lt
      rw [split, List.pairwise_append] at distinct
      exact distinct.2.2 child twice child List.mem_cons_self rfl
    have late : idle ∈ after := by
      rw [split, List.mem_append, List.mem_cons] at hi
      rcases hi with hi | rfl | hi
      · have some := early idle hi
        omega
      · omega
      · exact hi
    exact .intro found role split early again urgent ⟨idle, late, none⟩

end Tree

namespace Progress

variable {σ υ S α : Type} [Navigator σ S α] [Scalar α] [DrawSource υ α]
variable {progress last : Progress σ υ S α} {rules : Rules S α} {bias : α} {id horizon : Nat}
variable {rollout : Rollout α}

/-- A rollout from the root counts one visit at each node of its path. -/
theorem Rolls.visitsAt (rolls : Rolls rules progress 0 horizon bias (.ok rollout) last)
    (layered : progress.tree.Layered) (id : Nat) : last.tree.visitsAt id =
      progress.tree.visitsAt id + (rollout.path.map Prod.fst).count id :=
  congrArg Prod.fst ((rolls.learnt_of_ok layered.toLinked).2 id)

/-- A rollout from the root passes the children of a state, if there are any,
as often as the state itself. -/
theorem Rolls.count_children (rolls : Rolls rules progress 0 horizon bias (.ok rollout) last)
    (layered : progress.tree.Layered) {node : Node S α}
    (found : last.tree.nodes[id]? = some node) (role : node.role.isDecision = true)
    (some : node.children ≠ []) :
    (node.children.map fun kid => (rollout.path.map Prod.fst).count kid).sum =
      (rollout.path.map Prod.fst).count id := by
  obtain ⟨way, rest, route, path⟩ := rolls.route layered
  have linked := rolls.changes.linked layered.toLinked
  have rootless : ¬ (0 ∈ node.children ∧ 0 < horizon) := by
    rintro ⟨below, -⟩
    obtain ⟨-, -, -, later⟩ := linked.child found below
    exact Nat.not_lt_zero _ later
  have balance := route.conserved linked found (Tree.onward_of_decision role some horizon)
    linked.depthAt_root (Nat.zero_add horizon)
  rw [if_neg rootless, Nat.add_zero] at balance
  rw [path, fst_returnsOf]
  exact balance

/-- A rollout from the root passes at most one action of a state. -/
theorem Rolls.eq_of_passed (rolls : Rolls rules progress 0 horizon bias (.ok rollout) last)
    (layered : progress.tree.Layered) {node : Node S α} {first second : Nat}
    (found : last.tree.nodes[id]? = some node) (role : node.role.isDecision = true)
    (hf : first ∈ node.children) (hs : second ∈ node.children)
    (passed : first ∈ rollout.path.map Prod.fst)
    (passed' : second ∈ rollout.path.map Prod.fst) : first = second := by
  by_contra apart
  have once := (rolls.learnt_of_ok layered.toLinked).1
  have sum := rolls.count_children layered found role (List.ne_nil_of_mem hf)
  have above := List.nodup_iff_count.mp once id
  have here := List.count_pos_iff.mpr passed
  have there := List.count_pos_iff.mpr passed'
  have left : second ∈ node.children.erase first :=
    (List.mem_erase_of_ne (Ne.symm apart)).mpr hs
  rw [← List.sum_map_erase _ hf, ← List.sum_map_erase _ left] at sum
  omega

/-- A rollout that passes a tempting state gets out of turn. -/
theorem Rolls.not_triesInTurn (rolls : Rolls rules progress 0 horizon bias (.ok rollout) last)
    (layered : progress.tree.Layered) (tempts : progress.tree.Tempts bias id)
    (passed : id ∈ rollout.path.map Prod.fst) : ¬ last.tree.TriesInTurn := by
  intro inTurn
  obtain ⟨node, found, role, some⟩ := tempts.state
  obtain ⟨child, below, hc, picked⟩ := rolls.passed_preferred layered found role some passed
  obtain ⟨again, idle, below', none⟩ :=
    (layered.toLinked.tempts_iff found role below picked).mp tempts
  obtain ⟨node', found', kept⟩ := rolls.changes.extends found
  have role' : node'.role.isDecision = true := by rw [kept.role, role]
  rw [← kept.children (layered.expanded found some)] at below below'
  -- no other action is passed, so the one not tried stays so
  have skipped : idle ∉ rollout.path.map Prod.fst := by
    intro hi
    obtain rfl := rolls.eq_of_passed layered found' role' below below' hc hi
    omega
  have still := rolls.visitsAt layered idle
  rw [none, List.count_eq_zero.mpr skipped] at still
  have more := rolls.visitsAt layered child
  have once := List.count_pos_iff.mpr hc
  have out := inTurn found' role' idle below' still child below
  omega

/-- A rollout that passes no tempting state does not get out of turn. -/
theorem Rolls.triesInTurn (rolls : Rolls rules progress 0 horizon bias (.ok rollout) last)
    (layered : progress.tree.Layered) (inTurn : progress.tree.TriesInTurn)
    (sober : ∀ id ∈ rollout.path.map Prod.fst, ¬ progress.tree.Tempts bias id) :
    last.tree.TriesInTurn := by
  intro id node found role idle below none other below'
  by_contra twice
  have single := List.nodup_iff_count.mp (rolls.learnt_of_ok layered.toLinked).1 other
  have still := rolls.visitsAt layered idle
  have more := rolls.visitsAt layered other
  have tried : 0 < progress.tree.visitsAt other := by omega
  -- the action tried twice was there before, and so was its state with all its actions
  obtain ⟨old, ho⟩ := Tree.exists_of_visitsAt tried
  have steps := rolls.changes
  obtain ⟨before, hb, role', kids⟩ :=
    steps.extends.family layered (steps.layered layered).toLinked found below' ho
  have untried : progress.tree.visitsAt idle = 0 := by omega
  have once := inTurn hb (role' ▸ role) idle (kids ▸ below) untried other (kids ▸ below')
  have again : other ∈ rollout.path.map Prod.fst := List.count_pos_iff.mp (by omega)
  -- it is what the state preferred, since no other action was passed
  have some := List.ne_nil_of_mem below
  have passed : id ∈ rollout.path.map Prod.fst := by
    rw [← List.count_pos_iff, ← rolls.count_children layered found role some,
      ← List.sum_map_erase _ below']
    omega
  obtain ⟨child, mem, hc, picked⟩ :=
    rolls.passed_preferred layered hb (role' ▸ role) (kids ▸ some) passed
  obtain rfl := rolls.eq_of_passed layered found role (kids ▸ mem) below' hc again
  exact sober id passed ((layered.toLinked.tempts_iff hb (role' ▸ role) mem picked).mpr
    ⟨tried, idle, kids ▸ below, untried⟩)

end Progress

namespace Planner

variable {σ υ S α : Type} [Navigator σ S α] [Scalar α] [DrawSource υ α]
variable {planner : Planner σ υ S α} {settings : Settings α} {clock : Nat → Nat}
variable {batch next : Batch σ υ S α}

/-- A turn that a search makes is a rollout from the root of a layered tree. -/
theorem Passes.rolls (passes : planner.Passes settings clock batch)
    (turn : batch.turn planner.rules settings (clock batch.rollouts) = (.ok true, next)) :
    batch.progress.tree.Layered ∧ ∃ rollout last,
      Progress.Rolls planner.rules batch.progress 0 settings.horizon
        (settings.bias.weight batch.progress.tree.root.mean) (.ok rollout) last ∧
      next.progress.tree = last.tree := by
  obtain ⟨-, -, root, rollouts, -, explored⟩ := passes.explored tracks_any trivial
  refine ⟨explored.grown.layered, ?_⟩
  rcases Batch.turn_eq_ok turn with ⟨idle, -⟩ | ⟨-, rollout, progress, event, made, rfl⟩
  · cases idle
  · have rolls := batch.progress.rolls_rollout planner.rules 0 settings.horizon
      (settings.bias.weight batch.progress.tree.root.mean)
    rw [made] at rolls
    exact ⟨rollout, progress, rolls, rfl⟩

/-- No rollout that a search makes visits a tempting state. -/
def Sober (planner : Planner σ υ S α) (settings : Settings α) (clock : Nat → Nat) : Prop :=
  ∀ batch next, planner.Passes settings clock batch → batch.rollouts < settings.budget →
    batch.turn planner.rules settings (clock batch.rollouts) = (.ok true, next) →
      ∀ id, batch.progress.tree.visitsAt id < next.progress.tree.visitsAt id →
        ¬ batch.progress.tree.Tempts (settings.bias.weight batch.progress.tree.root.mean) id

/-- As long as no rollout visits a tempting state, actions are tried in turn. -/
theorem Sober.triesInTurn (sober : planner.Sober settings clock)
    (passes : planner.Passes settings clock batch) : batch.progress.tree.TriesInTurn := by
  induction passes with
  | @planted tree h =>
    obtain ⟨-, root, -, rfl⟩ := plant_eq_ok h
    intro id node found _ idle below
    have found' : (Tree.ofRoot root).nodes[id]? = some node := found
    rw [(Tree.getElem?_ofRoot found').2] at below
    cases below
  | @rolled batch next before left turn ih =>
    obtain ⟨layered, rollout, last, rolls, tree⟩ := before.rolls turn
    rw [tree]
    refine rolls.triesInTurn layered ih fun id passed => sober batch next before left turn id ?_
    have once := List.count_pos_iff.mpr passed
    rw [tree, rolls.visitsAt layered]
    omega

/-- Actions are tried in turn at all moments of a search exactly if no rollout
that it makes visits a tempting state. -/
theorem triesInTurn_iff (planner : Planner σ υ S α) (settings : Settings α) (clock : Nat → Nat) :
    (∀ batch, planner.Passes settings clock batch → batch.progress.tree.TriesInTurn) ↔
      planner.Sober settings clock := by
  constructor
  · intro inTurn batch next passes left turn id visited tempts
    obtain ⟨layered, rollout, last, rolls, tree⟩ := passes.rolls turn
    rw [tree, rolls.visitsAt layered] at visited
    have passed : id ∈ rollout.path.map Prod.fst := List.count_pos_iff.mp (by omega)
    have out := rolls.not_triesInTurn layered tempts passed
    exact out (tree ▸ inTurn next (passes.rolled left turn))
  · intro sober batch passes
    exact sober.triesInTurn passes

/-- Where no value is beyond all numbers, actions are always tried in turn. -/
theorem triesInTurn_of_finite (finite : ∀ value : α, Scalar.isFinite value = true)
    (passes : planner.Passes settings clock batch) : batch.progress.tree.TriesInTurn := by
  refine Sober.triesInTurn (fun batch next _ _ _ id _ tempts => ?_) passes
  obtain ⟨-, -, -, -, again, urgent, -⟩ := tempts
  rw [Tree.visitsAt_of_isUrgent finite urgent] at again
  exact Nat.lt_irrefl _ again

end Planner

namespace Surge

open scoped Doubles

/-- Two actions lead to a deadlock, the first of them by way of itself. -/
def table : Mdp Float where
  starts := [0]
  states := #[[⟨"a", [⟨1, 1⟩]⟩, ⟨"b", [⟨1, 2⟩]⟩], [⟨"a", [⟨1, 2⟩]⟩], []]

/-- Only one action earns anything, and taken twice it earns more than a double can tell. -/
def reward (_ : Nat) (label : String) : Except (Failure Float) Float :=
  .ok (if label = "a" then 1e308 else 0)

/-- Two actions ahead, twice. -/
def settings : Settings Float := { Settings.standard with horizon := 2, budget := 2 }

/-- A planner for the process. -/
def planner : Planner (Cursor Float) (Replay Float) Nat Float :=
  ⟨.ofMdp table, reward, ⟨#[0.5], 0, by decide⟩, settings, []⟩

/-- The settings hold and every reward is finite, and yet an action is tried
twice before the other one is tried. -/
theorem out_of_turn : settings.check = .ok () ∧
    (∀ state label earned, reward state label = .ok earned → Scalar.isFinite earned = true) ∧
      ∃ batch, planner.Passes settings (fun _ => 0) batch ∧
        ¬ batch.progress.tree.TriesInTurn := by
  have checked : settings.check.toOption = some () := by decide +kernel
  have ended : (planner.searchWithin (fun _ => 0) 2 2).1.toOption.map (fun findings =>
      (findings.tree.root.role.isDecision, findings.tree.root.children,
        findings.tree.visitsAt 1, findings.tree.visitsAt 2)) = some (true, [1, 2], 2, 0) := by
    decide +kernel
  refine ⟨?_, fun state label earned told => ?_, ?_⟩
  · cases h : settings.check with
    | error failure =>
      rw [h] at checked
      cases checked
    | ok _ => rfl
  · obtain rfl := Except.ok.inj told
    split <;> decide +kernel
  · rcases h : planner.searchWithin (fun _ => 0) 2 2 with ⟨_ | findings, planner'⟩
    · rw [h] at ended
      cases ended
    · rw [h] at ended
      obtain ⟨-, batch, passes, tree⟩ := Planner.passes_of_search h
      refine ⟨batch, passes, fun inTurn => ?_⟩
      obtain ⟨role, kids⟩ := Prod.mk.inj (Option.some.inj ended)
      obtain ⟨kids, visits⟩ := Prod.mk.inj kids
      obtain ⟨twice, never⟩ := Prod.mk.inj visits
      rw [tree] at inTurn
      have out := inTurn findings.tree.getElem?_root role 2 (by rw [kids]; decide) never 1
        (by rw [kids]; decide)
      omega

end Surge

end HorizonUct
