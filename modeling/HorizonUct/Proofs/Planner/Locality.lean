import HorizonUct.Proofs.Fork
import HorizonUct.Proofs.Planner.Lockstep
import HorizonUct.Proofs.Rollout.Whereabouts

/-!
# Searches do not look beyond their horizon

The outcome of the last action of a rollout is drawn, and nothing is ever asked
about it. So a search depends on the states that can be reached in fewer steps
than its horizon allows, and on nothing else. What lies beyond need not even be
there.
-/

namespace HorizonUct

open Attempt (Coupled)
open Progress (Abreast Arrival Departure Lockstep Ready)

variable {υ α : Type}

/-- The same failure, but for the number of states that it quotes. -/
inductive Failure.Alike : Failure α → Failure α → Prop where
  /-- The same failure. -/
  | refl (failure : Failure α) : Alike failure failure
  /-- A state that neither of two processes has. -/
  | unknownState (state count count' : Nat) :
      Alike (.navigation (.unknownState state count)) (.navigation (.unknownState state count'))

/-- The states that so many steps may lead to. Any outcome that is listed is a
step, however improbable. -/
inductive Mdp.Reaches (mdp : Mdp α) (root : Nat) : Nat → Nat → Prop where
  /-- No step leads nowhere else. -/
  | here : Reaches mdp root 0 root
  /-- One more step. -/
  | step {steps state : Nat} {choice : Choice α} {outcome : Outcome α}
      (before : Reaches mdp root steps state) (listed : mdp.Lists state choice outcome) :
      Reaches mdp root (steps + 1) outcome.target

/-- Two processes with rewards that agree on all states fewer than so many steps away. -/
structure Mdp.AgreeWithin (horizon root : Nat) (mdp mdp' : Mdp α)
    (reward reward' : Nat → String → Except (Failure α) α) : Prop where
  /-- Both have the state with the same choices, or neither has it. -/
  states : ∀ {steps state : Nat}, mdp.Reaches root steps state → steps < horizon →
    mdp'.states[state]? = mdp.states[state]?
  /-- Each choice is paid the same. -/
  rewards : ∀ {steps state : Nat} {choices : List (Choice α)} {choice : Choice α},
    mdp.Reaches root steps state → steps < horizon → mdp.states[state]? = some choices →
      choice ∈ choices → reward' state choice.action = reward state choice.action

namespace Cursor

/-- Cursors of two tables. -/
def Apart (mdp mdp' : Mdp α) (first second : Cursor α) : Prop :=
  first.mdp = mdp ∧ second.mdp = mdp'

/-- Cursors of two tables that stand on the same choices. -/
def Alike (mdp mdp' : Mdp α) (first second : Cursor α) : Prop :=
  Apart mdp mdp' first second ∧ second.here = first.here

/-- What a cursor tells depends on the choices that it stands on only. -/
theorem Alike.told [Scalar α] {mdp mdp' : Mdp α} {first second : Cursor α}
    (alike : Alike mdp mdp' first second) (role : Role Nat) :
    role.offspring second = role.offspring first := by
  obtain ⟨table, here⟩ := first
  obtain ⟨table', here'⟩ := second
  obtain ⟨-, same⟩ := alike
  obtain rfl : here' = here := same
  rfl

/-- Cursors of two tables that have the same choices for a state, or none, go there alike. -/
theorem Apart.moveTo {mdp mdp' : Mdp α} {first second : Cursor α}
    (apart : Apart mdp mdp' first second) {state : Nat}
    (same : mdp'.states[state]? = mdp.states[state]?) :
    Coupled Failure.Alike (Apart mdp mdp') (fun _ _ => Alike mdp mdp')
      (first.moveTo state) (second.moveTo state) := by
  have table := apart
  obtain ⟨rfl, rfl⟩ := apart
  rw [Cursor.moveTo, Cursor.moveTo, same]
  cases first.mdp.states[state]? with
  | none => exact .error (.unknownState _ _ _) table
  | some choices => exact .ok ⟨table, rfl⟩

end Cursor

section Together

variable {mdp mdp' : Mdp α} {root horizon : Nat}

/-- What searches of two tables agree in before a node with so many actions left. -/
structure Progress.Near (mdp mdp' : Mdp α) (root horizon left id : Nat)
    (first second : Progress (Cursor α) υ Nat α) : Prop
    extends Abreast (fun value => value) (Cursor.Apart mdp mdp') first second where
  /-- The tree unrolls the first table. -/
  faithful : first.tree.Faithful mdp
  /-- The cursor stands where the action of the node is taken, if it is one. -/
  ready : first.Ready (Cursor.StandsOn mdp) id
  /-- So does the other one. -/
  stays : ∀ {node : Node Nat α}, first.tree.nodes[id]? = some node → node.role.isDecision = false →
    Cursor.Alike mdp mdp' first.navigator second.navigator
  /-- The state of the node is as near as the actions that were taken allow. -/
  near : ∀ {state : Nat}, first.tree.stateOf id = .ok (some state) →
    ∃ steps, mdp.Reaches root steps state ∧ steps + left ≤ horizon

/-- What searches of two tables agree in between their rollouts. -/
structure Progress.Level (mdp mdp' : Mdp α) (root : Nat)
    (first second : Progress (Cursor α) υ Nat α) : Prop
    extends Abreast (fun value => value) (Cursor.Apart mdp mdp') first second where
  /-- The tree unrolls the first table. -/
  faithful : first.tree.Faithful mdp
  /-- The root stands for the initial state. -/
  planted : first.tree.root.role = .decision root

variable {first second here there there' : Progress (Cursor α) υ Nat α} {left id : Nat}

/-- A rollout from a state needs no preparation. -/
theorem Progress.approach_root (planted : first.tree.root.role = .decision root) :
    first.approach 0 = (.ok (), first) := by
  have decides : first.tree.root.role.isDecision = true := by
    rw [planted]
    rfl
  rw [Progress.approach, Tree.node_eq_ok_iff.mpr first.tree.getElem?_root]
  exact if_pos decides

/-- Between rollouts the searches agree in what they have to before the root. -/
theorem Progress.Level.near (level : Level mdp mdp' root first second) (horizon : Nat) :
    first.Near mdp mdp' root horizon horizon 0 second := by
  have never : ∀ {node : Node Nat α}, first.tree.nodes[0]? = some node →
      node.role.isDecision ≠ false := by
    intro node found
    rw [level.faithful.layered.decision_root found]
    nofun
  have owner := Tree.stateOf_decision first.tree.getElem?_root level.planted
  refine ⟨level.toAbreast, level.faithful, fun _ found role => (never found role).elim,
    fun found role => (never found role).elim, fun {state} owner' => ⟨0, ?_, by omega⟩⟩
  rw [owner, Except.ok.injEq, Option.some.injEq] at owner'
  rw [← owner']
  exact .here

variable [Scalar α]

/-- Where a descent has arrived with an action left, the state is near in the grown tree too. -/
theorem Progress.Near.arrived (near : Near mdp mdp' root horizon left id first second)
    (arrival : Arrival first id (.ok ()) here) {state : Nat}
    (owner : (here.countVisit id).tree.stateOf id = .ok (some state)) :
    (here.countVisit id).tree.Faithful mdp ∧
      ∃ steps, mdp.Reaches root steps state ∧ steps + left ≤ horizon := by
  have steps := (arrival.steps (Cursor.tracks mdp) near.navigator.1 near.ready).1
  have counted : Tree.Steps (Tree.Told (Cursor.StandsOn mdp)) first.tree
      (here.countVisit id).tree := steps.tail (.revise here.tree id Node.alike_countVisit)
  obtain ⟨node, found⟩ := arrival.found
  obtain ⟨own, before⟩ := near.faithful.layered.belongs found
  have same := owner.symm.trans (counted.extends.stateOf before)
  rw [Except.ok.injEq, Option.some.injEq] at same
  exact ⟨counted.preserve Tree.Step.faithful near.faithful, near.near (same ▸ before)⟩

variable [DrawSource υ α] {rules rules' : Rules Nat α}

/-- Where a descent goes on, the state is as near as the actions that are left allow. -/
theorem Progress.Near.onward {bias : α}
    (near : Near mdp mdp' root horizon (left + 1) id first second)
    (arrival : Arrival first id (.ok ()) here) {move : Move α} {child : Nat}
    (departure : Departure rules bias (here.countVisit id) id (.ok move) there)
    (goes : move.next? = some child)
    (both : Abreast (fun value => value) (Cursor.Alike mdp mdp') there there') :
    Near mdp mdp' root horizon (move.left (left + 1)) child there there' := by
  obtain ⟨steps, -, state, owner, stands⟩ :=
    departure.steps (Cursor.tracks mdp) near.navigator.1 near.ready arrival
  have faithful := steps.preserve Tree.Step.faithful near.faithful
  refine ⟨both.imp fun _ _ alike => alike.1, faithful,
    departure.ready faithful.layered owner stands goes, fun _ _ => both.navigator, ?_⟩
  intro below reached
  have same := departure.same.1
  rw [same] at owner reached faithful
  obtain ⟨-, count, reaches, inside⟩ := near.arrived arrival owner
  cases departure with
  | stop => cases goes
  | pick found role selected =>
    cases goes
    rw [Tree.stateOf_decision found role, Except.ok.injEq, Option.some.injEq] at owner
    have unmoved := faithful.layered.stateOf_below found role (Tree.mem_of_select selected found)
    rw [unmoved, Except.ok.injEq, Option.some.injEq] at reached
    exact ⟨count, by rw [← reached, owner]; exact reaches, inside⟩
  | act found role earned draw =>
    cases goes
    obtain ⟨choice, outcome, entry, listed, there, role'⟩ :=
      faithful.led found (by rw [role]; rfl) owner (Tree.draw_eq_ok draw found).2.1
    rw [Tree.stateOf_decision there role', Except.ok.injEq, Option.some.injEq] at reached
    rw [← reached]
    exact ⟨count + 1, reaches.step listed, by rw [Move.left]; omega⟩

/-- Descents over two tables that agree within the horizon go side by side. -/
theorem Mdp.AgreeWithin.lockstep
    (agree : mdp.AgreeWithin horizon root mdp' rules.reward rules'.reward)
    (tolerance : rules'.tolerance = rules.tolerance) (bias : α) :
    Lockstep (fun value => value) Failure.Alike (Cursor.Apart mdp mdp') (Cursor.Alike mdp mdp')
      rules rules' bias fun left id (first second : Progress (Cursor α) υ Nat α) =>
        first.Near mdp mdp' root horizon left id second where
  rescaling := Rescaling.same
  tolerance := tolerance
  refl := .refl
  looser _ _ alike := alike.1
  told _ _ alike := alike.told
  abreast near := near.toAbreast
  moves near found role := by
    obtain ⟨steps, reaches, inside⟩ := near.near (Tree.stateOf_decision found role)
    exact near.navigator.moveTo (agree.states reaches (by omega))
  stays near found role := near.stays found role
  earns near arrival found role owner := by
    obtain ⟨faithful, steps, reaches, inside⟩ := near.arrived arrival owner
    obtain ⟨choices, choice, listed, placed, rfl⟩ := faithful.listed found role owner
    rw [agree.rewards reaches (by omega) listed (List.mem_of_getElem? placed)]
    exact (congrFun Except.map_id _).symm
  onward near arrival departure goes both := near.onward arrival departure goes both

/-- Rollouts from the root end alike, and the next ones can follow. -/
theorem Progress.Level.rollout
    (agree : mdp.AgreeWithin horizon root mdp' rules.reward rules'.reward)
    (tolerance : rules'.tolerance = rules.tolerance) (bias : α)
    (level : Level mdp mdp' root first second) :
    Coupled Failure.Alike (Abreast (fun value => value) (Cursor.Apart mdp mdp'))
      (fun made made' last last' => made' = made.rescale (fun value => value) ∧
        Level mdp mdp' root last last')
      (first.rollout rules 0 horizon bias) (second.rollout rules' 0 horizon bias) := by
  have same : second.tree = first.tree := level.tree.trans first.tree.rescale_same
  have ready : Coupled Failure.Alike (Abreast (fun value => value) (Cursor.Apart mdp mdp'))
      (fun _ _ first second => first.Near mdp mdp' root horizon horizon 0 second)
      (first.approach 0) (second.approach 0) := by
    rw [approach_root level.planted, approach_root (same ▸ level.planted)]
    exact .ok (level.near horizon)
  have rolled := (agree.lockstep tolerance bias).rollout level.toAbreast ready
  have rolls := first.rolls_rollout rules 0 horizon bias
  generalize first.rollout rules 0 horizon bias = ends at rolled rolls ⊢
  generalize second.rollout rules' 0 horizon bias = ends' at rolled ⊢
  have steps := (rolls.steps (Cursor.tracks mdp) level.faithful.layered level.navigator.1).1
  cases rolled with
  | error failures leftovers => exact .error failures leftovers
  | ok both =>
    exact .ok ⟨both.1, both.2, steps.preserve Tree.Step.faithful level.faithful,
      steps.extends.role_root.trans level.planted⟩

end Together

namespace Planner

variable [Scalar α] {first second : Planner (Cursor α) υ Nat α} {root horizon : Nat}

/-- Tables with the same initial states plant the same tree. -/
theorem plant_congr (starts : second.navigator.mdp.starts = first.navigator.mdp.starts)
    (settings : Settings α) : second.plant settings = first.plant settings := by
  have alone : (Navigator.hasOneStart second.navigator : Except (Failure α) Bool) =
      Navigator.hasOneStart first.navigator := by
    show Except.ok (second.navigator.mdp.starts.length == 1) = _
    rw [starts]
    rfl
  have start : (Navigator.start second.navigator : Except (Failure α) Nat) =
      Navigator.start first.navigator := by
    rw [Cursor.start_eq, Cursor.start_eq, starts]
  rw [plant, plant, alone, start]

/-- Searches of two processes with the same single initial state, and with
rewards, that agree on every state fewer steps away from it than the horizon,
with the same settings, source and clock, end in the same way. Either both
return the same findings, or both fail alike, with the number of states quoted
in the failure as the only difference; and both have taken as many draws. What
lies at the horizon or beyond makes no difference, and need not be there. -/
theorem search_local [DrawSource υ α] (starts : first.navigator.mdp.starts = [root])
    (starts' : second.navigator.mdp.starts = [root])
    (settings : second.settings = first.settings) (source : second.source = first.source)
    (agree : first.navigator.mdp.AgreeWithin horizon root second.navigator.mdp first.reward
      second.reward) (clock : Nat → Nat) (budget : Nat) :
    Coupled Failure.Alike (fun last last' => last'.source = last.source)
      (fun findings findings' last last' => findings' = findings ∧ last'.source = last.source)
      (first.searchWithin clock horizon budget) (second.searchWithin clock horizon budget) := by
  have level : Level (Cursor.Apart first.navigator.mdp second.navigator.mdp) first second :=
    ⟨⟨rfl, rfl⟩, settings, source⟩
  have tolerance : second.rules.tolerance = first.rules.tolerance :=
    congrArg Settings.tolerance settings
  have pairing : Pairing (fun value => value) Failure.Alike
      (Cursor.Apart first.navigator.mdp second.navigator.mdp) first.rules second.rules
      { first.settings with horizon := horizon, budget := budget }
      (Progress.Level first.navigator.mdp second.navigator.mdp root :
        Progress (Cursor α) υ Nat α → Progress (Cursor α) υ Nat α → Prop) :=
    ⟨fun level => level.toAbreast,
      fun _ _ level => ⟨level.toAbreast.tell _ _, level.faithful, level.planted⟩,
      fun _ => rfl, fun bias level => level.rollout agree tolerance bias⟩
  have searched := level.search clock horizon budget Failure.Alike.refl pairing
    (plant_congr (starts'.trans starts.symm) _) fun {tree} planted => by
      obtain ⟨-, root', start, rfl⟩ := plant_eq_ok planted
      have listed := Cursor.mem_starts start
      rw [starts] at listed
      obtain rfl : root = root' := (List.mem_singleton.mp listed).symm
      exact ⟨⟨(Tree.rescale_same _).symm, source, rfl, rfl⟩, Tree.faithful_ofRoot _ root, rfl⟩
  generalize first.searchWithin clock horizon budget = search at searched ⊢
  generalize second.searchWithin clock horizon budget = search' at searched ⊢
  cases searched with
  | error failures leftovers => exact .error failures leftovers.source
  | @ok findings findings' _ _ both =>
    obtain ⟨tree, tally, last⟩ := both
    obtain ⟨tree₁, tally₁⟩ := findings
    obtain ⟨tree₂, tally₂⟩ := findings'
    refine .ok ⟨?_, last.source⟩
    rw [Findings.mk.injEq]
    exact ⟨tree.trans tree₁.rescale_same, tally⟩

end Planner

namespace Fork

/-- The fork with a way back from where its table ends. -/
def loop : Mdp ℚ := { table with states := table.states.push [⟨"back", [⟨1, 0⟩]⟩] }

/-- A planner for the loop that is not paid for the way back. -/
def looper : Planner (Cursor ℚ) (Replay ℚ) Nat ℚ :=
  { planner with
    navigator := .ofMdp loop
    reward := fun state label =>
      if label = "back" then .error (.reward (.other "unpaid")) else reward state label }

/-- Fewer than two steps from the start the fork and the loop are the same. -/
theorem agree_within_two :
    table.AgreeWithin 2 0 looper.navigator.mdp planner.reward looper.reward := by
  have tossed : ∀ choices, table.states[0]? = some choices → ∀ choice ∈ choices,
      ∀ outcome ∈ choice.outcomes, outcome.target < 3 := by decide +kernel
  have near : ∀ {steps state : Nat}, table.Reaches 0 steps state → steps < 2 → state < 3 := by
    intro steps state reaches few
    cases reaches with
    | here => omega
    | step before listed =>
      cases before with
      | here =>
        obtain ⟨⟨choices, found, chosen⟩, member⟩ := listed
        exact tossed choices found _ chosen _ member
      | step => omega
  have same : ∀ state < 3, loop.states[state]? = table.states[state]? := by decide +kernel
  have paid : ∀ state < 3, ∀ choices, table.states[state]? = some choices →
      ∀ choice ∈ choices, choice.action ≠ "back" := by decide +kernel
  refine ⟨fun reaches few => same _ (near reaches few), ?_⟩
  intro steps state choices choice reaches few listed member
  exact if_neg (paid state (near reaches few) choices listed choice member)

end Fork

/-- Four rollouts of at most two actions find the same in the fork and in the loop. -/
theorem Fork.search_local_of_four : ∃ findings last last',
    planner.searchWithin (fun _ => 0) 2 4 = (.ok findings, last) ∧
      looper.searchWithin (fun _ => 0) 2 4 = (.ok findings, last') ∧
        last'.source = last.source := by
  have starts : planner.navigator.mdp.starts = [0] := rfl
  have starts' : looper.navigator.mdp.starts = [0] := rfl
  have ended : (planner.searchWithin (fun _ => 0) 2 4).1.isOk = true := by decide +kernel
  have searched := Planner.search_local starts starts' rfl rfl agree_within_two (fun _ => 0) 4
  generalize planner.searchWithin (fun _ => 0) 2 4 = search at ended searched ⊢
  generalize looper.searchWithin (fun _ => 0) 2 4 = search' at searched ⊢
  cases searched with
  | error => cases ended
  | @ok findings findings' last last' both =>
    obtain ⟨rfl, source⟩ := both
    exact ⟨_, last, last', rfl, rfl, source⟩

end HorizonUct
