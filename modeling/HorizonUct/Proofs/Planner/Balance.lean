import HorizonUct.Proofs.Planner.Appraisal
import HorizonUct.Proofs.Tree.Favourite
import Mathlib.Algebra.BigOperators.Ring.Finset
import Mathlib.Algebra.BigOperators.Ring.List
import Mathlib.Algebra.Order.BigOperators.Group.List
import Mathlib.Tactic.LinearCombination
import Mathlib.Tactic.Ring

/-!
# Returns are conserved from level to level

In exact arithmetic the mean of a node, taken once for each visit, is all that
its visits have returned. Along each route the return of a node is that of the
next one and what was earned at the node itself. Added up over all rollouts,
a state has seen in returns what its actions have, and an action what it earned
each time and what its outcomes have. So what a state takes itself to be worth
is an average over its actions, and the favourite is not below it.
-/

namespace HorizonUct

section Gain

variable {S K : Type} [Field K]

/-- All that the visits of a node have returned: its mean, once for each visit. -/
def Node.gain (node : Node S K) : K := node.visits * node.mean

/-- All that entries with an index carry. -/
def gainAt (id : Nat) (entries : List (Nat × K)) : K := (entriesAt id entries).sum

/-- One more entry in front adds what it carries at its own index. -/
theorem gainAt_cons (id : Nat) (entry : Nat × K) (rest : List (Nat × K)) :
    gainAt id (entry :: rest) = (if entry.1 = id then entry.2 else 0) + gainAt id rest := by
  by_cases he : entry.1 = id
  · subst he
    rw [gainAt, entriesAt_cons_self, List.sum_cons, if_pos rfl, gainAt]
  · rw [gainAt, entriesAt_cons_of_ne entry rest he, if_neg he, zero_add, gainAt]

/-- One more entry in front adds what it carries, if its index is looked at. -/
theorem sum_map_gainAt_cons {kids : List Nat} (distinct : kids.Nodup) (entry : Nat × K)
    (rest : List (Nat × K)) :
    (kids.map fun kid => gainAt kid (entry :: rest)).sum =
      (if entry.1 ∈ kids then entry.2 else 0) + (kids.map fun kid => gainAt kid rest).sum := by
  induction kids with
  | nil => rw [List.map_nil, List.sum_nil, if_neg List.not_mem_nil, zero_add]; rfl
  | cons kid others ih =>
    rw [List.nodup_cons] at distinct
    rw [List.map_cons, List.sum_cons, ih distinct.2, gainAt_cons, List.map_cons, List.sum_cons]
    by_cases he : entry.1 = kid
    · have fresh : entry.1 ∉ others := he ▸ distinct.1
      rw [if_pos he, if_neg fresh, if_pos (he ▸ List.mem_cons_self)]
      ring
    · have same : entry.1 ∈ kid :: others ↔ entry.1 ∈ others := by
        rw [List.mem_cons, or_iff_right he]
      rw [if_neg he]
      simp only [same]
      ring

/-- One more node in front of a way keeps the returns of another node in
balance with those of its children. If it is that node itself, then the way
goes on to one of the children. -/
theorem balanced_cons {kids : List Nat} (distinct : kids.Nodup) {id other : Nat}
    {names : List Nat} {returns : List (Nat × K)} (total : K) {own earned : K}
    (here : id = other → own = earned)
    (balanced : gainAt other returns + (if id = other then total else 0) =
      names.count other * earned + (kids.map fun kid => gainAt kid returns).sum) :
    gainAt other ((id, total + own) :: returns) + (if id ∈ kids then total + own else 0) =
      (id :: names).count other * earned +
        (kids.map fun kid => gainAt kid ((id, total + own) :: returns)).sum := by
  rw [gainAt_cons, sum_map_gainAt_cons distinct, List.count_cons]
  by_cases he : id = other
  · rw [if_pos he] at balanced
    rw [if_pos he, if_pos (beq_iff_eq.mpr he), Nat.cast_succ, here he]
    linear_combination balanced
  · rw [if_neg he] at balanced
    rw [if_neg he, if_neg (mt beq_iff_eq.mp he)]
    linear_combination balanced

/-- A node that has returned what its children have, and was visited as often,
is not worth more than the best of them that was visited. -/
theorem mean_le_of_gain [LinearOrder K] [IsStrictOrderedRing K] {node : Node S K}
    {below : List (Nat × Node S K)} {best : K} (visited : 0 < node.visits)
    (visits : node.visits = (below.map fun entry => entry.2.visits).sum)
    (gain : node.gain = (below.map fun entry => entry.2.gain).sum)
    (above : ∀ entry ∈ below, 0 < entry.2.visits → entry.2.mean ≤ best) : node.mean ≤ best := by
  have each : ∀ entry ∈ below, entry.2.gain ≤ (entry.2.visits : K) * best := by
    intro entry he
    rcases Nat.eq_zero_or_pos entry.2.visits with none | some
    · rw [Node.gain, none, Nat.cast_zero, zero_mul, zero_mul]
    · exact mul_le_mul_of_nonneg_left (above entry he some) (Nat.cast_nonneg _)
  have positive : (0 : K) < node.visits := Nat.cast_pos.mpr visited
  refine le_of_mul_le_mul_left ?_ positive
  calc (node.visits : K) * node.mean = (below.map fun entry => entry.2.gain).sum := gain
    _ ≤ (below.map fun entry => (entry.2.visits : K) * best).sum := List.sum_le_sum each
    _ = (node.visits : K) * best := by
      rw [visits, List.sum_map_mul_right, Nat.cast_list_sum, List.map_map]
      rfl

/-- What the visits of a state have returned its actions have, what those of an
action have returned its outcomes have and the action has earned. -/
structure Tree.Balances (reward : S → String → Except (Failure K) K) (tree : Tree S K) : Prop where
  /-- A visited state has seen what its actions have seen. -/
  decision : ∀ {id : Nat} {node : Node S K}, tree.nodes[id]? = some node →
    node.role.isDecision = true → 0 < node.visits → node.children ≠ [] →
      ∃ below, tree.children id = .ok below ∧
        node.gain = (below.map fun entry => entry.2.gain).sum
  /-- A visited state without actions is worth nought. -/
  deadlock : ∀ {id : Nat} {node : Node S K}, tree.nodes[id]? = some node →
    node.role.isDecision = true → 0 < node.visits → node.children = [] → node.mean = 0
  /-- A visited action has seen what its outcomes have seen, and has earned its
  reward in the state above it with each visit. -/
  chance : ∀ {id index : Nat} {label : String} {node : Node S K}, tree.nodes[id]? = some node →
    node.role = .chance index label → 0 < node.visits →
      ∃ up parent state earned below, node.parent = some up ∧ tree.nodes[up]? = some parent ∧
        parent.role = .decision state ∧ reward state label = .ok earned ∧
          tree.children id = .ok below ∧
            node.gain = node.visits * earned + (below.map fun entry => entry.2.gain).sum

end Gain

/-- The favourite of a visited state that has children is not below the state. -/
def Tree.Improves {S K : Type} [LE K] [Scalar K] (tree : Tree S K) : Prop :=
  ∀ ⦃id : Nat⦄ ⦃node : Node S K⦄, tree.nodes[id]? = some node → node.role.isDecision = true →
    0 < node.visits → node.children ≠ [] → ∃ best below, tree.favourite id = .ok (some best) ∧
      tree.nodes[best]? = some below ∧ node.mean ≤ below.mean

namespace Tree

section Balance

variable {S K : Type} [Field K] [LinearOrder K] {ln sqrt : K → K}
variable {tree : Tree S K} {rules : Rules S K} {left id rest other : Nat}
variable {way : List (Nat × K)} {node : Node S K}

/-- What a node earns whenever it is passed: an action its reward, a state nothing. -/
structure Earns (rules : Rules S K) (tree : Tree S K) (id : Nat) (node : Node S K)
    (earned : K) : Prop where
  /-- A state earns nothing. -/
  decision : node.role.isDecision = true → earned = 0
  /-- An action earns its reward. -/
  chance : ∀ {index : Nat} {label : String}, node.role = .chance index label →
    tree.earned rules id label = .ok earned

/-- Along a route the return of a node is that of the child it goes on to, and
what it earns, not counting the first node of the route among the children. -/
theorem Route.balanced (route : @Route S K (.exact ln sqrt) rules tree left id way rest)
    (linked : tree.Linked) (found : tree.nodes[other]? = some node) {earned : K}
    (earns : tree.Earns rules other node earned) :
    gainAt other (@returnsOf K (.exact ln sqrt) way) +
        (if id ∈ node.children then @totalOf K (.exact ln sqrt) way else 0) =
      (way.map Prod.fst).count other * earned +
        (node.children.map fun kid => gainAt kid (@returnsOf K (.exact ln sqrt) way)).sum := by
  have distinct : node.children.Nodup := (linked.sorted found).imp Nat.ne_of_lt
  have zero : @totalOf K (.exact ln sqrt) [] = 0 := Scalar.zero_exact ln sqrt
  induction route with
  | horizon id =>
    rw [zero, ite_self]
    simp [returnsOf, gainAt, entriesAt]
  | @stop left id here found' _ role bare =>
    refine balanced_cons distinct (@totalOf K (.exact ln sqrt) []) (fun he => ?_) ?_
    · subst he
      rw [found, Option.some.injEq] at found'
      exact (Scalar.zero_exact ln sqrt).trans (earns.decision (by rw [found', role])).symm
    · rw [zero, ite_self]
      simp [returnsOf, gainAt, entriesAt]
  | @pick left id child rest here way found' _ role below _ ih =>
    have onward := linked.mem_children_iff_eq found' below found
    simp only [onward] at ih
    refine balanced_cons distinct _ (fun he => ?_) ih
    subst he
    rw [found, Option.some.injEq] at found'
    exact (Scalar.zero_exact ln sqrt).trans (earns.decision (by rw [found', role])).symm
  | @act left id child rest index label reward here way found' _ role told fair below _ ih =>
    have onward := linked.mem_children_iff_eq found' below found
    simp only [onward] at ih
    refine balanced_cons distinct _ (fun he => ?_) ih
    subst he
    rw [found, Option.some.injEq] at found'
    have same := earns.chance (by rw [found', role])
    rw [told, Except.ok.injEq] at same
    exact same

/-- No visited child has a greater mean than the favourite. -/
theorem mean_le_favourite {best : Nat} {children : List (Nat × Node S K)}
    (h : @favourite S K (.exact ln sqrt) tree id = .ok (some best))
    (looked : tree.children id = .ok children) : ∃ below, (best, below) ∈ children ∧
      ∀ entry ∈ children, 0 < entry.2.visits → entry.2.mean ≤ below.mean := by
  let _ := Scalar.exact ln sqrt
  obtain ⟨below, named, above⟩ := le_favourite (Scalar.ordered_exact ln sqrt) looked
    (fun _ _ _ => Scalar.isUndefined_exact ln sqrt _) h
  exact ⟨below, named, fun entry he visited => of_decide_eq_true (above entry he visited)⟩

section Explored

variable [IsStrictOrderedRing K] {σ : Type} [Navigator σ S K] {kind : σ → Prop} {root : S}
variable {horizon : Nat} {rollouts : List (Rollout K)}

/-- All that the visits of a node have returned is the sum of the returns on record. -/
theorem Explored.gain
    (explored : @Explored σ S K _ (.exact ln sqrt) kind root rules horizon rollouts tree)
    (found : tree.nodes[id]? = some node) : node.gain = (returnsAt id rollouts).sum := by
  let _ := Scalar.exact ln sqrt
  have learnt := (learnt_eq found).symm.trans (explored.grown.learnt.2 id)
  rw [Rollout.made_map_ok, runningMean_exact] at learnt
  rw [Node.gain, (Prod.mk.inj learnt).1, (Prod.mk.inj learnt).2, length_mul_average]

/-- The returns on record at a node are those at its children, and what the
node earned each time that it was passed. -/
theorem Explored.balanced
    (explored : @Explored σ S K _ (.exact ln sqrt) kind root rules horizon rollouts tree)
    (found : tree.nodes[id]? = some node) {earned : K} (earns : tree.Earns rules id node earned) :
    (returnsAt id rollouts).sum = (passages rollouts).count id * earned +
      (node.children.map fun kid => (returnsAt kid rollouts).sum).sum := by
  let _ := Scalar.exact ln sqrt
  have linked := explored.grown.layered.toLinked
  have rootless : 0 ∉ node.children := by
    intro below
    obtain ⟨-, -, -, later⟩ := linked.child found below
    exact Nat.not_lt_zero _ later
  have routed := explored.routed
  clear explored
  induction rollouts with
  | nil => simp [returnsAt, passages]
  | cons rollout others ih =>
    obtain ⟨way, rest, route, path⟩ := routed rollout List.mem_cons_self
    have here := route.balanced linked found earns
    have more := ih fun other h => routed other (List.mem_cons_of_mem _ h)
    have split : ∀ kid : Nat, (returnsAt kid (rollout :: others)).sum =
        gainAt kid rollout.path + (returnsAt kid others).sum := fun kid => List.sum_append
    rw [if_neg rootless, add_zero, ← path] at here
    simp only [split, List.sum_map_add, passages_cons, List.count_append, Nat.cast_add, path,
      fst_returnsOf]
    simp only [← path]
    linear_combination here + more

/-- The children that are looked up have returned what is on record at them. -/
theorem Explored.gain_children
    (explored : @Explored σ S K _ (.exact ln sqrt) kind root rules horizon rollouts tree)
    {below : List (Nat × Node S K)} (looked : tree.children id = .ok below)
    (found : tree.nodes[id]? = some node) : (below.map fun entry => entry.2.gain) =
      node.children.map fun kid => (returnsAt kid rollouts).sum := by
  rw [← children_fst looked found, List.map_map]
  exact List.map_congr_left fun entry he => explored.gain (getElem?_of_mem_children looked he)

/-- A node has returned what its children have, and what it earned with each visit. -/
theorem Explored.gain_eq_sum
    (explored : @Explored σ S K _ (.exact ln sqrt) kind root rules horizon rollouts tree)
    (found : tree.nodes[id]? = some node) {earned : K} (earns : tree.Earns rules id node earned) :
    ∃ below, tree.children id = .ok below ∧
      node.gain = node.visits * earned + (below.map fun entry => entry.2.gain).sum := by
  let _ := Scalar.exact ln sqrt
  obtain ⟨below, looked⟩ := explored.grown.layered.toLinked.children found
  refine ⟨below, looked, ?_⟩
  rw [explored.gain found, explored.visits found, explored.gain_children looked found]
  exact explored.balanced found earns

/-- In an explored tree returns are conserved from level to level. -/
theorem Explored.balances
    (explored : @Explored σ S K _ (.exact ln sqrt) kind root rules horizon rollouts tree) :
    tree.Balances rules.reward := by
  let _ := Scalar.exact ln sqrt
  have layered := explored.grown.layered
  -- a state earns nothing, so it has returned what its actions have
  have idle : ∀ {id : Nat} {node : Node S K}, tree.nodes[id]? = some node →
      node.role.isDecision = true → ∃ below, tree.children id = .ok below ∧
        node.gain = (below.map fun entry => entry.2.gain).sum := by
    intro id node found role
    have earns : tree.Earns rules id node 0 := ⟨fun _ => rfl, fun chance => by
      rw [chance] at role
      cases role⟩
    obtain ⟨below, looked, sum⟩ := explored.gain_eq_sum found earns
    rw [mul_zero, zero_add] at sum
    exact ⟨below, looked, sum⟩
  refine ⟨fun found role _ _ => idle found role, ?_, ?_⟩
  · intro id node found role visited bare
    obtain ⟨below, looked, sum⟩ := idle found role
    have names := children_fst looked found
    rw [bare, List.map_eq_nil_iff] at names
    rw [names, List.map_nil, List.sum_nil, Node.gain, mul_eq_zero] at sum
    exact sum.resolve_left (Nat.cast_ne_zero.mpr (Nat.ne_of_gt visited))
  · intro id index label node found role visited
    obtain ⟨⟨earned, told⟩, -⟩ := explored.sampled found role visited
    have earns : tree.Earns rules id node earned := by
      refine ⟨fun decision => ?_, fun chance => ?_⟩
      · rw [role] at decision
        cases decision
      · rw [role] at chance
        cases chance
        exact told
    obtain ⟨below, looked, sum⟩ := explored.gain_eq_sum found earns
    obtain ⟨up, parent, state, hp, hu, hs, owner⟩ :=
      layered.stateOf_chance found (by rw [role]; rfl)
    obtain ⟨state', owner', known⟩ := earned_eq_ok_iff.mp told
    rw [owner, Except.ok.injEq, Option.some.injEq] at owner'
    exact ⟨up, parent, state, earned, below, hp, hu, hs, owner' ▸ known, looked, sum⟩

/-- What a visited state has returned on average its favourite has returned at least. -/
theorem Explored.improves
    (explored : @Explored σ S K _ (.exact ln sqrt) kind root rules horizon rollouts tree) :
    @Improves S K _ (.exact ln sqrt) tree := by
  let _ := Scalar.exact ln sqrt
  intro id node found role visited some
  obtain ⟨below, looked, sum⟩ :=
    explored.visits_eq_sum found (onward_of_decision role some horizon)
  obtain ⟨best, favoured⟩ := explored.favourite found role visited some
  obtain ⟨action, hb, above⟩ := mean_le_favourite favoured looked
  refine ⟨best, action, favoured, getElem?_of_mem_children looked hb, ?_⟩
  obtain ⟨below', looked', gain⟩ := explored.balances.decision found role visited some
  rw [looked, Except.ok.injEq] at looked'
  exact mean_le_of_gain visited sum (looked' ▸ gain) above

end Explored

end Balance

/-- In exact arithmetic, the tree of every search that comes to its end
conserves the returns, and no visited state is above its favourite. -/
theorem balances_of_search {σ υ S K : Type} [Field K] [LinearOrder K] [IsStrictOrderedRing K]
    (ln sqrt : K → K) [Navigator σ S K] [DrawSource υ K] {planner planner' : Planner σ υ S K}
    {clock : Nat → Nat} {horizon budget : Nat} {findings : Findings S K}
    (h : @Planner.searchWithin σ υ S K _ (.exact ln sqrt) _ planner clock horizon budget =
      (.ok findings, planner')) :
    findings.tree.Balances planner.reward ∧ @Improves S K _ (.exact ln sqrt) findings.tree := by
  let _ := Scalar.exact ln sqrt
  obtain ⟨-, -, root, rollouts, -, explored⟩ := Planner.explored_of_search tracks_any trivial h
  exact ⟨explored.balances, explored.improves⟩

end Tree

/-- Four rollouts of at most two actions conserve their returns. -/
theorem Fork.balances_of_four : ∃ findings planner',
    planner.searchWithin (fun _ => 0) 2 4 = (.ok findings, planner') ∧
      findings.tree.Balances reward ∧ findings.tree.Improves := by
  have ended : (planner.searchWithin (fun _ => 0) 2 4).1.isOk = true := by decide +kernel
  rcases h : planner.searchWithin (fun _ => 0) 2 4 with ⟨_ | findings, planner'⟩
  · rw [h] at ended
    cases ended
  · exact ⟨findings, planner', rfl, Tree.balances_of_search (fun x => x) (fun x => x) h⟩

end HorizonUct
