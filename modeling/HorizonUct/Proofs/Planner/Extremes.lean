import HorizonUct.Proofs.Planner.Tallies
import HorizonUct.Proofs.Rollout.Whereabouts
import Mathlib.Algebra.Order.BigOperators.Group.List

/-!
# Between the worst path and the best

Whatever a rollout meets below a state, it takes some choice and some outcome of
it there, and so on until the horizon or a deadlock. So each return lies between
the least and the greatest that can be earned along any path of the table, and
without rounding their mean does. If there is only one path, it is what the path
earns.
-/

namespace HorizonUct

/-- What may follow a state: the label of a choice with the target of one of its outcomes. -/
def Mdp.continuations {α : Type} (mdp : Mdp α) (state : Nat) : List (String × Nat) :=
  (mdp.states[state]?.getD []).flatMap fun choice =>
    choice.outcomes.map fun outcome => (choice.action, outcome.target)

/-- Every state of a table has at most one choice, and each choice one outcome. -/
def Mdp.Deterministic {α : Type} (mdp : Mdp α) : Prop :=
  ∀ (state : Nat) (choices : List (Choice α)), mdp.states[state]? = some choices →
    choices.length ≤ 1 ∧ ∀ choice ∈ choices, choice.outcomes.length = 1

/-- An outcome of a choice of a state may follow it. -/
theorem Mdp.Lists.mem_continuations {α : Type} {mdp : Mdp α} {state : Nat} {choice : Choice α}
    {outcome : Outcome α} (lists : mdp.Lists state choice outcome) :
    (choice.action, outcome.target) ∈ mdp.continuations state := by
  obtain ⟨⟨choices, listed, chosen⟩, member⟩ := lists
  rw [continuations, listed]
  exact List.mem_flatMap.mpr ⟨choice, chosen, List.mem_map_of_mem member⟩

/-- In a deterministic table at most one thing may follow a state. -/
theorem Mdp.Deterministic.length_le {α : Type} {mdp : Mdp α} (deterministic : mdp.Deterministic)
    (state : Nat) : (mdp.continuations state).length ≤ 1 := by
  rw [continuations]
  cases listed : mdp.states[state]? with
  | none => exact Nat.zero_le 1
  | some choices =>
    obtain ⟨few, single⟩ := deterministic state choices listed
    rcases choices with _ | ⟨choice, _ | ⟨other, rest⟩⟩
    · exact Nat.zero_le 1
    · have one := single choice List.mem_cons_self
      simp [one]
    · simp at few

section Extremes

variable {K : Type} [Field K]

/-- What is earned from a state with so many actions at most, if each time the
worth of all continuations is given and one of them picked; nothing is earned
where there are none. -/
def Mdp.extreme (pick : List K → Option K) (mdp : Mdp K) (earns : Nat → String → K) :
    Nat → Nat → K
  | 0, _ => 0
  | left + 1, state =>
    (pick ((mdp.continuations state).map fun next =>
      earns state next.1 + extreme pick mdp earns left next.2)).getD 0

/-- What is earned along the first continuation of each state. -/
def Mdp.pathSum (mdp : Mdp K) (earns : Nat → String → K) : Nat → Nat → K
  | 0, _ => 0
  | left + 1, state =>
    (mdp.continuations state).head?.elim 0 fun next =>
      earns state next.1 + pathSum mdp earns left next.2

/-- Where there is nothing to choose from, every path is the only one. -/
theorem Mdp.Deterministic.extreme_eq {mdp : Mdp K} (deterministic : mdp.Deterministic)
    {pick : List K → Option K} (none : pick [] = .none) (one : ∀ value, pick [value] = some value)
    (earns : Nat → String → K) (left state : Nat) :
    mdp.extreme pick earns left state = mdp.pathSum earns left state := by
  induction left generalizing state with
  | zero => rfl
  | succ left ih =>
    have few := deterministic.length_le state
    rw [extreme, pathSum]
    generalize mdp.continuations state = nexts at few
    rcases nexts with _ | ⟨next, _ | ⟨other, rest⟩⟩
    · rw [List.map_nil, none]
      rfl
    · rw [List.map_singleton, one, ih]
      rfl
    · simp at few

variable [LinearOrder K]

/-- The most that can be earned along a path from a state, with so many actions at most. -/
def Mdp.best (mdp : Mdp K) (earns : Nat → String → K) (left state : Nat) : K :=
  mdp.extreme List.max? earns left state

/-- The least that can be earned along a path from a state, with so many actions at most. -/
def Mdp.worst (mdp : Mdp K) (earns : Nat → String → K) (left state : Nat) : K :=
  mdp.extreme List.min? earns left state

/-- What lies between the least and the most that can be earned. -/
def Mdp.Between (mdp : Mdp K) (earns : Nat → String → K) (left state : Nat) (value : K) : Prop :=
  mdp.worst earns left state ≤ value ∧ value ≤ mdp.best earns left state

/-- An entry of a list lies between the least and the greatest. -/
theorem between_of_mem {values : List K} {value : K} (h : value ∈ values) :
    values.min?.getD 0 ≤ value ∧ value ≤ values.max?.getD 0 := by
  obtain ⟨least, hl⟩ := Option.isSome_iff_exists.mp (List.isSome_min?_of_mem h)
  obtain ⟨greatest, hg⟩ := Option.isSome_iff_exists.mp (List.isSome_max?_of_mem h)
  rw [hl, hg]
  exact ⟨(List.min?_eq_some_iff.mp hl).2 value h, (List.max?_eq_some_iff.mp hg).2 value h⟩

variable {mdp : Mdp K} {earns : Nat → String → K} {left state : Nat}

/-- Nothing can be earned if no action is left to take. -/
theorem Mdp.between_zero : mdp.Between earns 0 state 0 :=
  ⟨le_refl _, le_refl _⟩

/-- Nothing can be earned in a deadlock. -/
theorem Mdp.between_deadlock (deadlock : mdp.states[state]? = some []) :
    mdp.Between earns left state 0 := by
  cases left with
  | zero => exact between_zero
  | succ left =>
    rw [Between, worst, best, extreme, extreme, continuations, deadlock]
    exact ⟨le_refl _, le_refl _⟩

/-- In a deterministic table nothing but what the only path earns lies between. -/
theorem Mdp.Deterministic.eq_pathSum (deterministic : mdp.Deterministic) {value : K}
    (between : mdp.Between earns left state value) : value = mdp.pathSum earns left state := by
  have low : mdp.worst earns left state = mdp.pathSum earns left state :=
    deterministic.extreme_eq rfl (fun _ => rfl) earns left state
  have high : mdp.best earns left state = mdp.pathSum earns left state :=
    deterministic.extreme_eq rfl (fun _ => rfl) earns left state
  rw [Between, low, high] at between
  exact le_antisymm between.2 between.1

variable [IsStrictOrderedRing K]

/-- An action adds what it earns to what can be earned after its outcome. -/
theorem Mdp.Between.earn {label : String} {target : Nat} {value : K}
    (between : mdp.Between earns left target value)
    (next : (label, target) ∈ mdp.continuations state) :
    mdp.Between earns (left + 1) state (value + earns state label) := by
  have low := (between_of_mem (List.mem_map_of_mem (f := fun next : String × Nat =>
    earns state next.1 + mdp.worst earns left next.2) next)).1
  have high := (between_of_mem (List.mem_map_of_mem (f := fun next : String × Nat =>
    earns state next.1 + mdp.best earns left next.2) next)).2
  rw [add_comm value]
  exact ⟨low.trans (add_le_add_right between.1 _), (add_le_add_right between.2 _).trans high⟩

/-- What some numbers lie between, their mean does. -/
theorem Mdp.Between.average {values : List K} (some : 0 < values.length)
    (all : ∀ value ∈ values, mdp.Between earns left state value) :
    mdp.Between earns left state (values.sum / values.length) := by
  have count : (0 : K) < values.length := Nat.cast_pos.mpr some
  have low := List.card_nsmul_le_sum values _ fun value h => (all value h).1
  have high := List.sum_le_card_nsmul values _ fun value h => (all value h).2
  rw [nsmul_eq_mul, mul_comm] at low high
  exact ⟨(le_div_iff₀ count).mpr low, (div_le_iff₀ count).mpr high⟩

end Extremes

namespace Tree

section Suffix

variable {S α : Type} [Scalar α] {tree : Tree S α} {rules : Rules S α} {left id rest depth : Nat}
variable {way : List (Nat × α)}

/-- What a node of a route has returned is what its own route from there on has
earned, with the actions that are left below its depth. -/
theorem Route.returned (route : Route rules tree left id way rest) (linked : tree.Linked)
    (depthAt : tree.DepthAt id depth) : ∀ entry ∈ returnsOf way, ∃ depth' left' later,
      tree.DepthAt entry.1 depth' ∧ depth' + left' = depth + left ∧
        Route rules tree left' entry.1 later rest ∧ entry.2 = totalOf later := by
  induction route generalizing depth with
  | horizon => nofun
  | stop found expanded role bare =>
    intro entry mem
    rw [List.mem_singleton.mp mem]
    exact ⟨depth, _, _, depthAt, rfl, .stop found expanded role bare, rfl⟩
  | pick found expanded role below onward ih =>
    intro entry mem
    have child := depthAt.atChild linked found below
    rw [role, if_pos rfl] at child
    rcases List.mem_cons.mp mem with rfl | mem
    · exact ⟨depth, _, _, depthAt, rfl, .pick found expanded role below onward, rfl⟩
    · exact ih child entry mem
  | act found expanded role earned fair below onward ih =>
    intro entry mem
    have child := depthAt.atChild linked found below
    rw [role, Role.isDecision, if_neg Bool.false_ne_true] at child
    rcases List.mem_cons.mp mem with rfl | mem
    · exact ⟨depth, _, _, depthAt, rfl, .act found expanded role earned fair below onward, rfl⟩
    · obtain ⟨depth', left', later, there, sum, suffix⟩ := ih child entry mem
      exact ⟨depth', left', later, there, by omega, suffix⟩

end Suffix

section Exact

variable {K : Type} [Field K] [LinearOrder K] [IsStrictOrderedRing K] {ln sqrt : K → K}
variable {mdp : Mdp K} {tree : Tree Nat K} {rules : Rules Nat K} {earns : Nat → String → K}
variable {left id rest depth horizon state root : Nat} {way : List (Nat × K)}
variable {rollouts : List (Rollout K)} {node : Node Nat K}

/-- What a route has earned lies between the least and the most that can be
earned from the state its first node belongs to. -/
theorem Route.between (route : @Route Nat K (.exact ln sqrt) rules tree left id way rest)
    (faithful : tree.Faithful mdp)
    (completes : ∀ state label earned, rules.reward state label = .ok earned →
      earns state label = earned)
    (owner : tree.stateOf id = .ok (some state)) :
    mdp.Between earns left state (@totalOf K (.exact ln sqrt) way) := by
  let _ := Scalar.exact ln sqrt
  have nought := Scalar.zero_exact ln sqrt
  have layered := faithful.layered
  induction route generalizing state with
  | horizon =>
    rw [totalOf, List.foldr_nil, nought]
    exact Mdp.between_zero
  | stop found expanded role bare =>
    obtain ⟨own, role⟩ := Role.eq_decision role
    rw [stateOf_decision found role, Except.ok.injEq, Option.some.injEq] at owner
    rw [totalOf, List.foldr_cons, List.foldr_nil, nought, add_zero, ← owner]
    exact Mdp.between_deadlock (faithful.deadlock found role expanded bare)
  | pick found expanded role below onward ih =>
    obtain ⟨own, role⟩ := Role.eq_decision role
    rw [stateOf_decision found role, Except.ok.injEq, Option.some.injEq] at owner
    have onward := ih (layered.stateOf_below found (owner ▸ role) below)
    rw [totalOf, List.foldr_cons, ← totalOf, nought, add_zero]
    exact onward
  | act found expanded role earned fair below onward ih =>
    obtain ⟨own, owner', told⟩ := earned_eq_ok_iff.mp earned
    rw [owner, Except.ok.injEq, Option.some.injEq] at owner'
    subst owner'
    obtain ⟨choice, outcome, entry, lists, label, there, role'⟩ :=
      faithful.follows found role owner below
    have onward := ih (stateOf_decision there role')
    have worth := completes _ _ _ told
    have more := onward.earn (label ▸ lists.mem_continuations)
    rw [worth] at more
    exact more

/-- What a node of a route has returned lies between the least and the most that
can be earned from its state with the actions that are left below its depth. -/
theorem Route.between_of_returned
    (route : @Route Nat K (.exact ln sqrt) rules tree left id way rest)
    (faithful : tree.Faithful mdp)
    (completes : ∀ state label earned, rules.reward state label = .ok earned →
      earns state label = earned)
    (depthAt : tree.DepthAt id depth) {other depth' : Nat} {value : K}
    (returned : (other, value) ∈ @returnsOf K (.exact ln sqrt) way)
    (owner : tree.stateOf other = .ok (some state))
    (counted : tree.actionsBefore other = .ok depth') :
    mdp.Between earns (depth + left - depth') state value := by
  let _ := Scalar.exact ln sqrt
  obtain ⟨deep, left', later, there, sum, suffix, rfl⟩ :=
    route.returned faithful.layered.toLinked depthAt _ returned
  rw [there.actionsBefore, Except.ok.injEq] at counted
  have same : depth + left - depth' = left' := by omega
  rw [same]
  exact suffix.between faithful completes owner

/-- In an explored tree the mean of each visited node lies between the least and
the most that can be earned from its state with the actions that are left. -/
theorem Explored.between
    (explored : @Explored (Cursor K) Nat K _ (.exact ln sqrt) (fun cursor => cursor.mdp = mdp)
      root rules horizon rollouts tree)
    (completes : ∀ state label earned, rules.reward state label = .ok earned →
      earns state label = earned)
    (found : tree.nodes[id]? = some node) (visited : 0 < node.visits)
    (owner : tree.stateOf id = .ok (some state)) (counted : tree.actionsBefore id = .ok depth) :
    mdp.Between earns (horizon - depth) state node.mean := by
  let _ := Scalar.exact ln sqrt
  have faithful := explored.grown.faithful
  have learnt := (learnt_eq found).symm.trans (explored.grown.learnt.2 id)
  rw [Rollout.made_map_ok, runningMean_exact] at learnt
  obtain ⟨visits, mean⟩ := Prod.mk.inj learnt
  rw [mean]
  refine Mdp.Between.average (visits ▸ visited) fun value mem => ?_
  obtain ⟨rollout, hr, mem⟩ := List.mem_flatMap.mp mem
  obtain ⟨way, rest, route, path⟩ := explored.routed rollout hr
  have returned := mem_entriesAt_iff.mp mem
  rw [path] at returned
  have between := route.between_of_returned faithful completes
    faithful.layered.toLinked.depthAt_root returned owner counted
  rwa [Nat.zero_add] at between

end Exact

end Tree

/-- In exact arithmetic, after every search of a table that comes to its end,
the mean return of each visited state lies between the least and the most that
can be earned along a path of the table from there, with the actions that are
left. If no state leaves a choice and no choice an outcome, the estimate is what
the only path earns, unless there was no time for any rollout. -/
theorem Planner.between_of_search {υ K : Type} [Field K] [LinearOrder K] [IsStrictOrderedRing K]
    (ln sqrt : K → K) [DrawSource υ K] {planner planner' : Planner (Cursor K) υ Nat K}
    {clock : Nat → Nat} {horizon budget : Nat} {findings : Findings Nat K}
    (h : @Planner.searchWithin (Cursor K) υ Nat K _ (.exact ln sqrt) _ planner clock horizon
      budget = (.ok findings, planner')) {earns : Nat → String → K}
    (completes : ∀ state label earned, planner.reward state label = .ok earned →
      earns state label = earned) :
    ∃ root, Navigator.start planner.navigator = .ok root ∧
      (∀ (id : Nat) (node : Node Nat K) (state : Nat), findings.tree.nodes[id]? = some node →
        node.role = .decision state → 0 < node.visits →
          ∃ depth, findings.tree.actionsBefore id = .ok depth ∧ depth ≤ horizon ∧
            planner.navigator.mdp.worst earns (horizon - depth) state ≤ node.mean ∧
              node.mean ≤ planner.navigator.mdp.best earns (horizon - depth) state) ∧
      (planner.navigator.mdp.Deterministic →
        findings.estimate = planner.navigator.mdp.pathSum earns horizon root ∨
          ∃ limit, planner.settings.timeLimit = some limit ∧ limit ≤ clock 0) := by
  let _ := Scalar.exact ln sqrt
  obtain ⟨moment, journal, passes, rfl, rfl, end_⟩ := ends_of_search h
  obtain ⟨-, checked, -, root, rollouts, start, explored, accounts⟩ :=
    passes.accounts (Cursor.tracks planner.navigator.mdp) rfl
  obtain ⟨some, allowed, -⟩ := Settings.of_check checked
  have faithful := explored.grown.faithful
  refine ⟨root, start, fun id node state found role visited => ?_, fun deterministic => ?_⟩
  · obtain ⟨depth, depthAt, inside, -⟩ := explored.depth_le found
    have owner := Tree.stateOf_decision found role
    exact ⟨depth, depthAt.actionsBefore, inside,
      explored.between completes found visited owner depthAt.actionsBefore⟩
  · have passed := faithful.count_root some accounts.retraced
    rw [← explored.visits (Tree.getElem?_root _), ← accounts.counted] at passed
    rcases Nat.eq_zero_or_pos moment.rollouts with none | made
    · -- without any rollout the budget is not used up, so the time is
      rw [none] at end_
      rcases end_ with full | late
      · exact absurd full (Nat.ne_of_lt allowed)
      · exact .inr late
    · have role := explored.grown.role_root (Cursor.tracks planner.navigator.mdp)
      have found := Tree.getElem?_root moment.progress.tree
      have between := explored.between completes found (passed ▸ made)
        (Tree.stateOf_decision found role)
        faithful.layered.toLinked.depthAt_root.actionsBefore
      exact .inl (deterministic.eq_pathSum between)

namespace Corridor

/-- Two steps lead to a deadlock, and there is no other way. -/
def table : Mdp ℚ where
  starts := [0]
  states := #[[⟨"step", [⟨1, 1⟩]⟩], [⟨"step", [⟨1, 2⟩]⟩], []]

/-- A planner for the process. -/
def planner : Planner (Cursor ℚ) (Replay ℚ) Nat ℚ :=
  { Fork.planner with navigator := .ofMdp table }

/-- There is nothing to choose from. -/
theorem deterministic_table : table.Deterministic := by
  intro state choices listed
  match state with
  | 0 | 1 | 2 =>
    cases listed
    decide
  | state + 3 => cases listed

/-- What the actions of the fork earn. -/
def earns (state : Nat) (label : String) : ℚ := (Fork.reward state label).toOption.getD 0

/-- All of them earn something. -/
theorem completes_earns (state : Nat) (label : String) (earned : ℚ)
    (told : Fork.reward state label = .ok earned) : earns state label = earned := by
  rw [earns, told]
  rfl

/-- Four rollouts of at most three actions estimate what the two steps earn. Where a
toss decides, the mean is above the worst that it can lead to and below the best. -/
theorem between_four :
    (∃ findings planner', planner.searchWithin (fun _ => 0) 3 4 = (.ok findings, planner') ∧
      0 < findings.tree.root.visits ∧ findings.estimate = table.pathSum earns 3 0) ∧
    ∃ findings planner', Fork.planner.searchWithin (fun _ => 0) 2 4 = (.ok findings, planner') ∧
      0 < findings.tree.root.visits ∧
        Fork.table.worst earns 2 0 ≤ findings.tree.root.mean ∧
          findings.tree.root.mean ≤ Fork.table.best earns 2 0 ∧
            Fork.table.worst earns 2 0 = 1 ∧ findings.tree.root.mean = 5 / 2 ∧
              Fork.table.best earns 2 0 = 3 := by
  constructor
  · have ended : (planner.searchWithin (fun _ => 0) 3 4).1.toOption.map
        (fun findings => findings.tree.root.visits) = some 4 := by decide +kernel
    rcases h : planner.searchWithin (fun _ => 0) 3 4 with ⟨_ | findings, planner'⟩
    · rw [h] at ended
      cases ended
    · rw [h] at ended
      have visits : findings.tree.root.visits = 4 := Option.some.inj ended
      obtain ⟨root, start, -, exact_⟩ :=
        Planner.between_of_search (fun x => x) (fun x => x) h completes_earns
      obtain rfl := Except.ok.inj start
      rcases exact_ deterministic_table with sum | ⟨limit, set, -⟩
      · exact ⟨findings, planner', rfl, by omega, sum⟩
      · cases set
  · have ended : (Fork.planner.searchWithin (fun _ => 0) 2 4).1.toOption.map (fun findings =>
        (findings.tree.root.role, findings.tree.root.visits, findings.tree.root.mean,
          (findings.tree.actionsBefore 0).toOption)) = some (.decision 0, 4, 5 / 2, some 0) := by
      decide +kernel
    rcases h : Fork.planner.searchWithin (fun _ => 0) 2 4 with ⟨_ | findings, planner'⟩
    · rw [h] at ended
      cases ended
    · rw [h] at ended
      obtain ⟨role, learnt⟩ := Prod.mk.inj (Option.some.inj ended)
      obtain ⟨visits, learnt⟩ := Prod.mk.inj learnt
      obtain ⟨mean, top⟩ := Prod.mk.inj learnt
      obtain ⟨-, -, between, -⟩ :=
        Planner.between_of_search (fun x => x) (fun x => x) h completes_earns
      obtain ⟨depth, counted, -, low, high⟩ :=
        between 0 _ 0 (Tree.getElem?_root findings.tree) role (by omega)
      rw [counted] at top
      obtain rfl : depth = 0 := Option.some.inj top
      exact ⟨findings, planner', rfl, by omega, low, high, by decide +kernel, mean,
        by decide +kernel⟩

end Corridor

end HorizonUct
