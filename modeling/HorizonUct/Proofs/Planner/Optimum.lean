import HorizonUct.Proofs.Planner.Appraisal
import HorizonUct.Proofs.Policy.Recursion
import HorizonUct.Proofs.Rollout.Unrolling
import Mathlib.Algebra.Order.BigOperators.Group.List

/-!
# No advice is worth more than the optimum

The advice of a searched tree is a way to act in the table for as many actions
as the horizon allows, except that it stops where nothing has been tried yet.
In exact arithmetic it is worth no more than the best way to act with the
freedom to stop, which the recursion of Bellman gives.
-/

namespace HorizonUct

section Bellman

variable {K : Type} [Field K] [LinearOrder K]

/-- The most that can be expected from a state with so many actions at most,
where stopping is allowed. -/
def Mdp.optimum (mdp : Mdp K) (earns : Nat → String → K) : Nat → Nat → K
  | 0, _ => 0
  | left + 1, state =>
    ((mdp.states[state]?.getD []).map fun choice => earns state choice.action +
      (choice.outcomes.map fun outcome =>
        outcome.probability * optimum mdp earns left outcome.target).sum).foldr max 0

/-- None of some numbers exceeds the greatest of them, and neither does nought. -/
theorem le_foldr_max (numbers : List K) :
    0 ≤ numbers.foldr max 0 ∧ ∀ number ∈ numbers, number ≤ numbers.foldr max 0 := by
  induction numbers with
  | nil => exact ⟨le_refl _, nofun⟩
  | cons number rest ih =>
    rw [List.foldr_cons]
    refine ⟨ih.1.trans (le_max_right _ _), fun other ho => ?_⟩
    rcases List.mem_cons.mp ho with rfl | ho
    · exact le_max_left _ _
    · exact (ih.2 other ho).trans (le_max_right _ _)

/-- Stopping is never worse than the optimum. -/
theorem Mdp.optimum_nonneg (mdp : Mdp K) (earns : Nat → String → K) (left state : Nat) :
    0 ≤ mdp.optimum earns left state := by
  cases left with
  | zero => exact le_refl _
  | succ left => exact (le_foldr_max _).1

/-- No choice is better than the optimum. -/
theorem Mdp.le_optimum (mdp : Mdp K) (earns : Nat → String → K) (left state : Nat)
    {choices : List (Choice K)} {choice : Choice K} (listed : mdp.states[state]? = some choices)
    (h : choice ∈ choices) : earns state choice.action + (choice.outcomes.map fun outcome =>
      outcome.probability * mdp.optimum earns left outcome.target).sum ≤
        mdp.optimum earns (left + 1) state := by
  refine (le_foldr_max _).2 _ (List.mem_map.mpr ⟨choice, ?_, rfl⟩)
  rw [listed]
  exact h

end Bellman

namespace Tree

/-- What is advised in a tree that unrolls a table is a choice of the state. -/
theorem Faithful.advice {α : Type} [Scalar α] {mdp : Mdp α} {tree : Tree Nat α} {id : Nat}
    {advice : Advice Nat α} (faithful : tree.Faithful mdp)
    (advised : tree.advice id = .ok (some advice)) : ∃ choices choice,
      mdp.states[advice.state]? = some choices ∧ choice ∈ choices ∧
        choice.action = advice.label ∧ List.Forall₂ (fun entry outcome =>
          tree.nodes[entry.1]? = some entry.2 ∧ entry.2.role = .decision outcome.target ∧
            entry.2.reach = some outcome.probability) advice.outcomes choice.outcomes := by
  obtain ⟨outcomes, best, node, action, place, favoured, found, role, there, chance, looked⟩ :=
    advice_eq_some advised
  obtain ⟨named, -⟩ := favourite_eq_some favoured found
  have names := children_fst looked there
  have kids : action.children ≠ [] := names ▸ fun none => outcomes (List.map_eq_nil_iff.mp none)
  obtain ⟨choices, place', choice, listed, placed, -, chance', below⟩ :=
    faithful.action found role named there (faithful.layered.expanded there kids) looked
  obtain ⟨-, label⟩ := Role.chance.inj (chance.symm.trans chance')
  exact ⟨choices, choice, listed, List.mem_of_getElem? placed, label.symm, below⟩

section Explored

variable {σ S α : Type} [Navigator σ S α] [Scalar α] {kind : σ → Prop} {root : S} {id : Nat}
variable {rules : Rules S α} {horizon : Nat} {rollouts : List (Rollout α)} {tree : Tree S α}
variable {advice : Advice S α}

/-- In an explored tree an action that is advised has been drawn from, so it
and the state lie above the horizon. -/
theorem Explored.advised (explored : tree.Explored kind root rules horizon rollouts)
    (advised : tree.advice id = .ok (some advice)) {depth : Nat} (depthAt : tree.DepthAt id depth) :
    depth < horizon ∧ ∃ best, tree.children best = .ok advice.outcomes ∧
      tree.Fair rules.tolerance best ∧
        ∀ entry ∈ advice.outcomes, tree.DepthAt entry.1 (depth + 1) := by
  obtain ⟨-, best, node, action, place, favoured, found, role, there, chance, looked⟩ :=
    advice_eq_some advised
  obtain ⟨below, action', there', visited⟩ := favourite_eq_some favoured found
  rw [there, Option.some.injEq] at there'
  subst there'
  have linked := explored.grown.layered.toLinked
  have depthBest := depthAt.atChild linked found below
  rw [role, Role.isDecision, if_pos rfl] at depthBest
  have passed : best ∈ passages rollouts := by
    rw [← List.count_pos_iff, ← explored.visits there]
    exact visited
  obtain ⟨-, fair⟩ := explored.sampled there chance visited
  refine ⟨explored.actionsBefore_lt passed depthBest.actionsBefore, best, looked, fair, ?_⟩
  intro entry he
  have depthEntry := depthBest.atChild linked there (fst_mem_of_mem_children looked there he)
  rw [chance, Role.isDecision, if_neg Bool.false_ne_true] at depthEntry
  exact depthEntry

end Explored

section Bound

variable {K : Type} [Field K] [LinearOrder K] {ln sqrt : K → K} {mdp : Mdp K}
variable {root state id depth left horizon : Nat} {rules : Rules Nat K}
variable {rollouts : List (Rollout K)} {tree : Tree Nat K} {node : Node Nat K}
variable {earns : Nat → String → K}

/-- Probabilities that make a distribution are not negative. -/
theorem Fair.reach_nonneg {tolerance : K} {outcomes : List (Nat × Node Nat K)}
    (fair : @Tree.Fair Nat K (.exact ln sqrt) tree tolerance id)
    (looked : tree.children id = .ok outcomes) {entry : Nat × Node Nat K} (h : entry ∈ outcomes)
    {probability : K} (reach : entry.2.reach = some probability) : 0 ≤ probability := by
  let _ := Scalar.exact ln sqrt
  obtain ⟨outcomes', looked', -, distribution⟩ := fair
  rw [looked, Except.ok.injEq] at looked'
  rw [isDistribution, Bool.and_eq_true, List.all_map, List.all_eq_true, ← looked'] at distribution
  have above := distribution.1 entry h
  rw [Function.comp_apply, reach, Option.getD_some] at above
  rw [← Scalar.zero_exact ln sqrt]
  exact of_decide_eq_true above

/-- In an explored tree, what a state is worth to those who take the advice does
not exceed the optimum with the actions that are left. -/
theorem Explored.worth_le_optimum [IsStrictOrderedRing K]
    (explored : @Explored (Cursor K) Nat K _ (.exact ln sqrt) (fun cursor => cursor.mdp = mdp)
      root rules horizon rollouts tree)
    (completes : ∀ state label earned, rules.reward state label = .ok earned →
      earns state label = earned)
    (found : tree.nodes[id]? = some node) (role : node.role = .decision state)
    (depthAt : tree.DepthAt id depth) (reach : depth + left = horizon) {value : K}
    (h : @Tree.worth Nat K (.exact ln sqrt) rules.reward tree id = .ok value) :
    value ≤ mdp.optimum earns left state := by
  let _ := Scalar.exact ln sqrt
  have faithful := explored.grown.faithful
  have linked := faithful.layered.toLinked
  have unadvised : ∀ {id left state : Nat} {value : K}, id < tree.size →
      tree.advice id = .ok none → tree.worth rules.reward id = .ok value →
        value ≤ mdp.optimum earns left state := by
    intro id left state value here advised h
    rw [linked.worth_of_none here advised, Except.ok.injEq] at h
    rw [← h, Scalar.zero_exact ln sqrt]
    exact mdp.optimum_nonneg earns left state
  induction left generalizing id node state depth value with
  | zero =>
    obtain ⟨advice?, advised⟩ := faithful.layered.branching.advice_ok found (by rw [role]; rfl)
    cases advice? with
    | none => exact unadvised (lt_size found) advised h
    | some advice =>
      have above := (explored.advised advised depthAt).1
      omega
  | succ left ih =>
    obtain ⟨advice?, advised⟩ := faithful.layered.branching.advice_ok found (by rw [role]; rfl)
    cases advice? with
    | none => exact unadvised (lt_size found) advised h
    | some advice =>
      obtain ⟨-, best, looked, fair, deeper⟩ := explored.advised advised depthAt
      obtain ⟨choices, choice, listed, hc, label, outcomes⟩ := faithful.advice advised
      obtain ⟨-, -, node', -, -, -, found', role', -⟩ := advice_eq_some advised
      rw [found, Option.some.injEq] at found'
      rw [← found', role] at role'
      rw [← Role.decision.inj role'] at listed
      rw [linked.worth_of_some (lt_size found) advised] at h
      obtain ⟨earned, terms, told, each, rfl⟩ := Advice.worth_eq_ok_iff.mp h
      rw [← Role.decision.inj role', ← label] at told
      -- outcome by outcome, what follows is not worth more than the optimum
      have follows : List.Forall₂ (· ≤ ·) terms (choice.outcomes.map fun outcome =>
          outcome.probability * mdp.optimum earns left outcome.target) := by
        refine List.forall₂_map_right_iff.mpr (Attempt.forall₂_join each
          ((List.forall₂_and_left _ _).mpr ⟨fun _ he => he, outcomes⟩) ?_)
        rintro entry term outcome ⟨below, worth, rfl⟩ ⟨he, there, own, probability⟩
        rw [probability, Option.getD_some]
        exact mul_le_mul_of_nonneg_left (ih there own (deeper entry he) (by omega) worth)
          (fair.reach_nonneg looked he probability)
      have sum := follows.sum_le_sum
      have earnedHere := completes state choice.action earned told
      have best := mdp.le_optimum earns left state listed hc
      rw [Scalar.total_exact ln sqrt]
      calc earned + terms.sum ≤ earned + (choice.outcomes.map fun outcome =>
            outcome.probability * mdp.optimum earns left outcome.target).sum :=
          add_le_add_right sum earned
        _ ≤ mdp.optimum earns (left + 1) state := earnedHere ▸ best

end Bound

end Tree

/-- In exact arithmetic, after every search of a table that comes to its end,
each situation of the chain is worth no more than the optimum of its state with
the actions that are left there, and the chain no more than that of the initial
state with as many as the horizon allows. -/
theorem Planner.chain_le_optimum {υ K : Type} [Field K] [LinearOrder K] [IsStrictOrderedRing K]
    (ln sqrt : K → K) [DrawSource υ K] {planner planner' : Planner (Cursor K) υ Nat K}
    {clock : Nat → Nat} {horizon budget : Nat} {findings : Findings Nat K}
    (h : @Planner.searchWithin (Cursor K) υ Nat K _ (.exact ln sqrt) _ planner clock horizon
      budget = (.ok findings, planner')) {earns : Nat → String → K}
    (completes : ∀ state label earned, planner.reward state label = .ok earned →
      earns state label = earned) :
    ∃ root chain values value, Navigator.start planner.navigator = .ok root ∧
      @Chain.ofTree Nat K (.exact ln sqrt) findings.tree = .ok chain ∧
      @Chain.values Nat K (.exact ln sqrt) planner.reward chain = .ok values ∧
      (∀ (index : Nat) (here : Situation Nat), chain.situations[index]? = some here →
        ∃ depth worth, findings.tree.actionsBefore here.node = .ok depth ∧
          values[index]? = some worth ∧
            worth ≤ planner.navigator.mdp.optimum earns (horizon - depth) here.state) ∧
      @Chain.value Nat K (.exact ln sqrt) planner.reward chain = .ok value ∧
        value ≤ planner.navigator.mdp.optimum earns horizon root := by
  let _ := Scalar.exact ln sqrt
  obtain ⟨-, -, root, rollouts, start, explored⟩ :=
    Planner.explored_of_search (Cursor.tracks planner.navigator.mdp) rfl h
  have layered := explored.grown.layered
  obtain ⟨chain, unrolled, traces, whole⟩ := Chain.ofTree_ok layered
  have follows := Chain.ofTree_follows layered unrolled
  obtain ⟨value, valued⟩ := traces.value whole explored.sampled
  obtain ⟨values, evaluated, first⟩ := Attempt.bind_eq_ok_iff.mp valued
  rcases follows.values traces layered whole planner.reward with
    ⟨values', evaluated', done, -⟩ | ⟨-, -, failure, -, -, broken⟩
  · obtain rfl := Except.ok.inj (evaluated'.symm.trans evaluated)
    refine ⟨root, chain, values', value, start, unrolled, evaluated', ?_, valued, ?_⟩
    · intro index here hs
      obtain ⟨node, found, role⟩ := traces.decisions hs
      obtain ⟨depth, depthAt, inside, -⟩ := explored.depth_le found
      obtain ⟨worth, hv, hw⟩ := done index here hs
      exact ⟨depth, worth, depthAt.actionsBefore, hv,
        explored.worth_le_optimum completes found role depthAt (by omega) hw⟩
    · obtain ⟨here, hs, node⟩ := traces.root
      obtain ⟨worth, hv, hw⟩ := done 0 here hs
      rw [traces.start, hv] at first
      rw [node] at hw
      rw [← Except.ok.inj first]
      exact explored.worth_le_optimum completes (Tree.getElem?_root _)
        (explored.grown.role_root (Cursor.tracks _)) layered.toLinked.depthAt_root
        (Nat.zero_add horizon) hw
  · have ran : chain.values planner.reward = .ok values := evaluated
    rw [broken] at ran
    cases ran

/-- Four rollouts of at most two actions lead to a chain that is worth no more
than the optimum. -/
theorem Fork.chain_le_optimum_of_four : ∃ findings planner' root chain values value,
    planner.searchWithin (fun _ => 0) 2 4 = (.ok findings, planner') ∧
      Navigator.start planner.navigator = .ok root ∧ Chain.ofTree findings.tree = .ok chain ∧
        chain.values reward = .ok values ∧ chain.value reward = .ok value ∧
          value ≤ table.optimum (fun state label => (reward state label).toOption.getD 0) 2
            root := by
  have ended : (planner.searchWithin (fun _ => 0) 2 4).1.isOk = true := by decide +kernel
  rcases h : planner.searchWithin (fun _ => 0) 2 4 with ⟨_ | findings, planner'⟩
  · rw [h] at ended
    cases ended
  · have completes : ∀ state label earned, planner.reward state label = .ok earned →
        (reward state label).toOption.getD 0 = earned := by
      intro state label earned told
      have known : reward state label = .ok earned := told
      rw [known]
      rfl
    obtain ⟨root, chain, values, value, start, unrolled, evaluated, -, valued, le⟩ :=
      Planner.chain_le_optimum (fun x => x) (fun x => x) h completes
    exact ⟨findings, planner', root, chain, values, value, rfl, start, unrolled, evaluated,
      valued, le⟩

end HorizonUct
