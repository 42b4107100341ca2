import HorizonUct.Proofs.Rollout.Growth
import HorizonUct.Proofs.Tree.Rescaling

/-!
# Rollouts side by side

Two rollouts are watched side by side, perhaps in different units, with
different navigators and different rewards. Before each node their trees and
sources agree and their navigators are akin; where both have arrived, the
navigators are tuned to each other, which is to say that they tell the same
children. As long as both are paid alike, the two take the same way and end
alike. What the two have to agree in at a node is a parameter, to be
established at the start and kept from node to node.
-/

namespace HorizonUct

open Attempt (Coupled)

variable {σ τ υ S α : Type} {change : α → α}

/-- A rollout in another unit. -/
def Rollout.rescale (change : α → α) (rollout : Rollout α) : Rollout α where
  total := change rollout.total
  path := rollout.path.map fun entry => (entry.1, change entry.2)
  steps := rollout.steps

/-- A move with what was earned in another unit. -/
def Move.rescale (change : α → α) : Move α → Move α
  | .stop => .stop
  | .pick child => .pick child
  | .act reward child => .act (change reward) child

/-- Navigators that tell the same let a tree grow alike in any unit. -/
theorem Tree.expand_rescale [Navigator σ S α] [Navigator τ S α] [Scalar α]
    (rescaling : Rescaling change) (tree : Tree S α) (id : Nat) {first : σ} {second : τ}
    (told : ∀ role : Role S, role.offspring second = role.offspring first) :
    (tree.rescale change).expand id second =
      ((tree.expand id first).1, (tree.expand id first).2.rescale change) := by
  rw [expand, expand, node_rescale]
  cases tree.node id with
  | error failure => rfl
  | ok node =>
    have expanded : (node.rescale change).expanded = node.expanded := rfl
    have role : (node.rescale change).role = node.role := rfl
    simp only [Except.map, expanded, role, told]
    cases node.expanded with
    | true => rfl
    | false =>
      cases asked : node.role.offspring first with
      | error failure => rfl
      | ok children =>
        have blank := fun child h => (Role.offspring_eq_ok asked child h).1
        simp only [Bool.false_eq_true, if_false, tree.rescale_adopt id rescaling blank]

namespace Progress

/-- Two searches that have come to the same, except for the unit, with
navigators in some relation. -/
structure Abreast (change : α → α) (akin : σ → τ → Prop) (first : Progress σ υ S α)
    (second : Progress τ υ S α) : Prop where
  /-- The trees differ in the unit only. -/
  tree : second.tree = first.tree.rescale change
  /-- As many draws have been taken. -/
  source : second.source = first.source
  /-- The navigators are in the relation. -/
  navigator : akin first.navigator second.navigator

namespace Abreast

variable {akin tuned : σ → τ → Prop} {first : Progress σ υ S α} {second : Progress τ υ S α}
variable {alike : Failure α → Failure α → Prop} {id : Nat}

/-- Searches are abreast by any looser relation of their navigators. -/
theorem imp {akin' : σ → τ → Prop} (abreast : Abreast change akin first second)
    (h : ∀ n n', akin n n' → akin' n n') : Abreast change akin' first second :=
  ⟨abreast.tree, abreast.source, h _ _ abreast.navigator⟩

/-- Searches are abreast whatever is entered in their journals. -/
theorem tell (abreast : Abreast change akin first second) (event event' : Event α) :
    Abreast change akin (first.tell event) (second.tell event') :=
  ⟨abreast.tree, abreast.source, abreast.navigator⟩

/-- Searches that are abreast stay so as both count a visit. -/
theorem countVisit (abreast : Abreast change akin first second) (id : Nat) :
    Abreast change akin (first.countVisit id) (second.countVisit id) := by
  refine ⟨?_, abreast.source, abreast.navigator⟩
  show second.tree.modify id Node.countVisit = (first.tree.modify id Node.countVisit).rescale change
  rw [abreast.tree, first.tree.rescale_modify id Node.countVisit Node.countVisit fun _ => rfl]

/-- Searches that are abreast arrive alike, if their navigators go to a state
alike and are tuned to each other at an action already. -/
theorem arrive [Navigator σ S α] [Navigator τ S α] [Scalar α] (rescaling : Rescaling change)
    (refl : ∀ failure, alike failure failure) (looser : ∀ n n', tuned n n' → akin n n')
    (told : ∀ (n : σ) (n' : τ), tuned n n' →
      ∀ role : Role S, role.offspring n' = role.offspring n)
    (abreast : Abreast change akin first second)
    (moves : ∀ {node : Node S α} {state : S}, first.tree.nodes[id]? = some node →
      node.role = .decision state → Coupled alike akin (fun _ _ => tuned)
        (Navigator.moveTo state first.navigator) (Navigator.moveTo state second.navigator))
    (stays : ∀ {node : Node S α}, first.tree.nodes[id]? = some node →
      node.role.isDecision = false → tuned first.navigator second.navigator) :
    Coupled alike (Abreast change akin) (fun _ _ => Abreast change tuned) (first.arrive id)
      (second.arrive id) := by
  have role : ∀ node : Node S α, (node.rescale change).role = node.role := fun _ => rfl
  -- both have come to stand, and see to the children
  have expand : ∀ n n', tuned n n' → Coupled alike (Abreast change akin)
      (fun _ _ => Abreast change tuned)
      ((first.tree.expand id n).1,
        ({ first with tree := (first.tree.expand id n).2, navigator := n } : Progress σ υ S α))
      ((second.tree.expand id n').1,
        ({ second with tree := (second.tree.expand id n').2, navigator := n' } :
          Progress τ υ S α)) := by
    intro n n' both
    have grown := first.tree.expand_rescale rescaling id (told n n' both)
    rw [← abreast.tree] at grown
    rw [grown]
    cases first.tree.expand id n with
    | mk result tree =>
      cases result with
      | error failure =>
        exact .error (refl failure) ⟨rfl, abreast.source, looser n n' both⟩
      | ok _ => exact .ok ⟨rfl, abreast.source, both⟩
  rw [Progress.arrive, Progress.arrive, abreast.tree, Tree.node_rescale]
  cases found : first.tree.node id with
  | error failure => exact .error (refl failure) abreast
  | ok node =>
    have entry := Tree.node_eq_ok_iff.mp found
    simp only [Except.map, role]
    cases hr : node.role with
    | chance index label =>
      exact expand _ _ (stays entry (by rw [hr]; rfl))
    | decision state =>
      have moved := moves entry hr
      simp only [Role.state?, stand]
      generalize Navigator.moveTo state first.navigator = goes at moved ⊢
      generalize Navigator.moveTo state second.navigator = goes' at moved ⊢
      cases moved with
      | ok both => exact expand _ _ both
      | error failures both => exact .error failures ⟨abreast.tree, abreast.source, both⟩

/-- Searches that are abreast leave alike if the action, where there is one, is
paid alike. -/
theorem depart [Scalar α] [DrawSource υ α] (rescaling : Rescaling change)
    {rules rules' : Rules S α} (tolerance : rules'.tolerance = rules.tolerance) (bias : α)
    (abreast : Abreast change akin first second)
    (earns : ∀ {node : Node S α} {index : Nat} {label : String} {state : S},
      first.tree.nodes[id]? = some node → node.role = .chance index label →
        first.tree.stateOf id = .ok (some state) →
          rules'.reward state label = (rules.reward state label).map change) :
    Coupled Eq (Abreast change akin)
      (fun move move' there there' => move' = move.rescale change ∧
        Abreast change akin there there')
      (first.depart rules bias id) (second.depart rules' (change bias) id) := by
  have role : ∀ node : Node S α, (node.rescale change).role = node.role := fun _ => rfl
  rw [Progress.depart, Progress.depart, abreast.tree, Tree.node_rescale]
  cases found : first.tree.node id with
  | error failure => exact .error rfl abreast
  | ok node =>
    have entry := Tree.node_eq_ok_iff.mp found
    simp only [Except.map, role]
    cases hr : node.role with
    | decision state =>
      simp only [first.tree.select_rescale id rescaling]
      cases first.tree.select id bias with
      | error failure => exact .error rfl abreast
      | ok child? =>
        cases child? with
        | none => exact .ok ⟨rfl, abreast⟩
        | some child => exact .ok ⟨rfl, abreast⟩
    | chance index label =>
      have earned : (first.tree.rescale change).earned rules' id label =
          (first.tree.earned rules id label).map change := by
        rw [Tree.earned, Tree.earned, Tree.stateOf_rescale]
        cases owner : first.tree.stateOf id with
        | error failure => rfl
        | ok state? =>
          cases state? with
          | none => rfl
          | some state => exact earns entry hr owner
      simp only [earned, tolerance, abreast.source, Tree.draw_rescale]
      cases first.tree.earned rules id label with
      | error failure => exact .error rfl abreast
      | ok reward =>
        simp only [Except.map]
        cases first.tree.draw id rules.tolerance first.source with
        | error failure => exact .error rfl abreast
        | ok drawn => exact .ok ⟨rfl, rfl, rfl, abreast.navigator⟩

end Abreast

section Together

variable [Navigator σ S α] [Navigator τ S α] [Scalar α]

/-- Navigators that are akin become tuned to each other by any move. -/
structure Tuning (σ τ : Type) {S α : Type} [Navigator σ S α] [Navigator τ S α] [Scalar α]
    (akin tuned : σ → τ → Prop) : Prop where
  /-- Those that are tuned to each other are akin. -/
  looser : ∀ n n', tuned n n' → akin n n'
  /-- They tell the same children. -/
  told : ∀ (n : σ) (n' : τ), tuned n n' → ∀ role : Role S, role.offspring n' = role.offspring n
  /-- A move leads both to the same, or fails for both. -/
  moves : ∀ (n : σ) (n' : τ) (state : S), akin n n' →
    Coupled Eq akin (fun _ _ => tuned) (Navigator.moveTo state n) (Navigator.moveTo state n')

/-- A navigator is tuned to itself. -/
theorem Tuning.same : Tuning σ σ (Eq : σ → σ → Prop) Eq := by
  refine ⟨fun _ _ h => h, ?_, ?_⟩
  · rintro n _ rfl role
    rfl
  · rintro n _ state rfl
    cases Navigator.moveTo state n with
    | mk result after =>
      cases result with
      | error failure => exact .error rfl rfl
      | ok _ => exact .ok rfl

variable {akin tuned : σ → τ → Prop}
variable {first : Progress σ υ S α} {second : Progress τ υ S α}

/-- What searches agree in before a node if every move tunes their navigators. -/
structure Abreast.Meets (change : α → α) (akin tuned : σ → τ → Prop) (id : Nat)
    (first : Progress σ υ S α) (second : Progress τ υ S α) : Prop
    extends Abreast change akin first second where
  /-- At an action the navigators are tuned to each other. -/
  stays : ∀ {node : Node S α}, first.tree.nodes[id]? = some node → node.role.isDecision = false →
    tuned first.navigator second.navigator

/-- Getting ready tunes the navigators where they have to be. -/
theorem Abreast.approach (tuning : Tuning σ τ akin tuned)
    (abreast : Abreast change akin first second) (start : Nat) :
    Coupled Eq (Abreast change akin)
      (fun _ _ ready ready' => Abreast.Meets change akin tuned start ready ready')
      (first.approach start) (second.approach start) := by
  rw [Progress.approach, Progress.approach, abreast.tree, Tree.node_rescale,
    Tree.stateOf_rescale]
  cases found : first.tree.node start with
  | error failure => exact .error rfl abreast
  | ok node =>
    have role : (node.rescale change).role = node.role := rfl
    simp only [Except.map, role]
    cases decides : node.role.isDecision with
    | true =>
      refine .ok ⟨abreast, fun found' role' => ?_⟩
      rw [Tree.node_eq_ok_iff.mp found, Option.some.injEq] at found'
      rw [found', role'] at decides
      cases decides
    | false =>
      simp only [Bool.false_eq_true, if_false]
      cases first.tree.stateOf start with
      | error failure => exact .error rfl abreast
      | ok state? =>
        cases state? with
        | none => exact .error rfl abreast
        | some state =>
          have moved := tuning.moves first.navigator second.navigator state abreast.navigator
          simp only [stand]
          generalize Navigator.moveTo state first.navigator = goes at moved ⊢
          generalize Navigator.moveTo state second.navigator = goes' at moved ⊢
          cases moved with
          | error failures both => exact .error failures ⟨abreast.tree, abreast.source, both⟩
          | ok both =>
            exact .ok ⟨⟨abreast.tree, abreast.source, tuning.looser _ _ both⟩, fun _ _ => both⟩

variable [DrawSource υ α] {rules rules' : Rules S α}

/-- What makes two descents go side by side, where `meets left id` says what the
searches have to agree in before they come to the node `id` with so many
actions left. -/
structure Lockstep (change : α → α) (alike : Failure α → Failure α → Prop)
    (akin tuned : σ → τ → Prop) (rules rules' : Rules S α) (bias : α)
    (meets : Nat → Nat → Progress σ υ S α → Progress τ υ S α → Prop) : Prop where
  /-- The units differ by a change of the unit. -/
  rescaling : Rescaling change
  /-- Probabilities are looked at with the same tolerance. -/
  tolerance : rules'.tolerance = rules.tolerance
  /-- A failure is like itself. -/
  refl : ∀ failure, alike failure failure
  /-- Navigators that are tuned to each other are akin. -/
  looser : ∀ n n', tuned n n' → akin n n'
  /-- They tell the same children. -/
  told : ∀ (n : σ) (n' : τ), tuned n n' → ∀ role : Role S, role.offspring n' = role.offspring n
  /-- The searches are abreast. -/
  abreast : ∀ {left id : Nat} {first : Progress σ υ S α} {second : Progress τ υ S α},
    meets left id first second → Abreast change akin first second
  /-- The navigators go to the state of the node alike. -/
  moves : ∀ {left id : Nat} {first : Progress σ υ S α} {second : Progress τ υ S α}
    {node : Node S α} {state : S}, meets (left + 1) id first second →
      first.tree.nodes[id]? = some node → node.role = .decision state →
        Coupled alike akin (fun _ _ => tuned) (Navigator.moveTo state first.navigator)
          (Navigator.moveTo state second.navigator)
  /-- At an action the navigators are tuned to each other already. -/
  stays : ∀ {left id : Nat} {first : Progress σ υ S α} {second : Progress τ υ S α}
    {node : Node S α}, meets (left + 1) id first second → first.tree.nodes[id]? = some node →
      node.role.isDecision = false → tuned first.navigator second.navigator
  /-- An action is paid alike. -/
  earns : ∀ {left id : Nat} {first here : Progress σ υ S α} {second : Progress τ υ S α}
    {node : Node S α} {index : Nat} {label : String} {state : S},
      meets (left + 1) id first second → Arrival first id (.ok ()) here →
        (here.countVisit id).tree.nodes[id]? = some node → node.role = .chance index label →
          (here.countVisit id).tree.stateOf id = .ok (some state) →
            rules'.reward state label = (rules.reward state label).map change
  /-- The searches agree again before the next node. -/
  onward : ∀ {left id child : Nat} {move : Move α} {first here there : Progress σ υ S α}
    {second there' : Progress τ υ S α}, meets (left + 1) id first second →
      Arrival first id (.ok ()) here →
        Departure rules bias (here.countVisit id) id (.ok move) there →
          move.next? = some child → Abreast change tuned there there' →
            meets (move.left (left + 1)) child there there'

namespace Lockstep

variable {alike : Failure α → Failure α → Prop} {bias : α}
variable {meets : Nat → Nat → Progress σ υ S α → Progress τ υ S α → Prop}

/-- Descents that go side by side end alike, after ways that differ in the unit
only. -/
theorem descend (lockstep : Lockstep change alike akin tuned rules rules' bias meets)
    (bound : Nat) {left id : Nat} {first : Progress σ υ S α} {second : Progress τ υ S α}
    (meet : meets left id first second) (trail : List (Nat × α)) :
    let descent := Progress.descend rules bias bound left id trail first
    let descent' := Progress.descend rules' (change bias) bound left id
      (trail.map fun entry => (entry.1, change entry.2)) second
    descent'.trail = descent.trail.map (fun entry => (entry.1, change entry.2)) ∧
      Coupled alike (Abreast change akin)
        (fun left left' last last' => left' = left ∧ Abreast change akin last last')
        (descent.result, descent.progress) (descent'.result, descent'.progress) := by
  have abreast := lockstep.abreast meet
  induction bound generalizing left id first second trail with
  | zero =>
    cases left with
    | zero => exact ⟨rfl, .ok ⟨rfl, abreast⟩⟩
    | succ left => exact ⟨rfl, .error (lockstep.refl _) abreast⟩
  | succ bound ih =>
    cases left with
    | zero => exact ⟨rfl, .ok ⟨rfl, abreast⟩⟩
    | succ left =>
      have arrival := arrival_arrive first id
      have arrivals := abreast.arrive lockstep.rescaling lockstep.refl lockstep.looser
        lockstep.told (fun found role => lockstep.moves meet found role)
        fun found role => lockstep.stays meet found role
      simp only [Progress.descend]
      generalize first.arrive id = arrives at arrival arrivals ⊢
      generalize second.arrive id = arrives' at arrivals ⊢
      cases arrivals with
      | error failures leftovers => exact ⟨rfl, .error failures leftovers⟩
      | @ok _ _ here here' reached =>
        have departure := departure_depart rules bias (here.countVisit id) id
        have departures := (reached.countVisit id).depart lockstep.rescaling lockstep.tolerance
          bias fun found role owner => lockstep.earns meet arrival found role owner
        have idle : ((id, Scalar.zero) :: trail.map fun entry => (entry.1, change entry.2)) =
            ((id, Scalar.zero) :: trail).map fun entry => (entry.1, change entry.2) := by
          rw [List.map_cons, lockstep.rescaling.zero]
        dsimp only at arrival ⊢
        generalize (here.countVisit id).depart rules bias id = departs at departure departures ⊢
        generalize (here'.countVisit id).depart rules' (change bias) id = departs' at departures ⊢
        cases departures with
        | error failures leftovers =>
          cases failures
          exact ⟨idle, .error (lockstep.refl _) (leftovers.imp lockstep.looser)⟩
        | @ok move _ there there' left' =>
          obtain ⟨rfl, both⟩ := left'
          cases move with
          | stop =>
            exact ⟨idle, .ok ⟨rfl, (both.imp lockstep.looser).tell _ _⟩⟩
          | pick child =>
            have next := lockstep.onward meet arrival departure rfl both
            have rest := ih next ((id, Scalar.zero) :: trail) (lockstep.abreast next)
            rw [← idle] at rest
            exact rest
          | act reward child =>
            have next := lockstep.onward meet arrival departure rfl both
            exact ih next ((id, reward) :: trail) (lockstep.abreast next)

/-- Rollouts that start alike and go side by side end alike. -/
theorem rollout (lockstep : Lockstep change alike akin tuned rules rules' bias meets)
    {start horizon : Nat} {first : Progress σ υ S α} {second : Progress τ υ S α}
    (abreast : Abreast change akin first second)
    (approach : Coupled alike (Abreast change akin) (fun _ _ => meets horizon start)
      (first.approach start) (second.approach start)) :
    Coupled alike (Abreast change akin)
      (fun made made' last last' => made' = made.rescale change ∧ Abreast change akin last last')
      (first.rollout rules start horizon bias)
      (second.rollout rules' start horizon (change bias)) := by
  rw [Progress.rollout, Progress.rollout]
  by_cases nought : horizon = 0
  · rw [if_pos nought, if_pos nought]
    refine .ok ⟨?_, abreast⟩
    rw [Rollout.rescale, lockstep.rescaling.zero]
    rfl
  · rw [if_neg nought, if_neg nought]
    generalize first.approach start = approaches at approach ⊢
    generalize second.approach start = approaches' at approach ⊢
    cases approach with
    | error failures leftovers => exact .error failures leftovers
    | @ok _ _ ready ready' meet =>
      have size : ready'.tree.moveBound horizon = ready.tree.moveBound horizon := by
        rw [Tree.moveBound, Tree.moveBound, (lockstep.abreast meet).tree, Tree.size_rescale]
      obtain ⟨trails, ends⟩ := lockstep.descend (ready.tree.moveBound horizon) meet []
      simp only [size]
      rw [List.map_nil] at trails ends
      generalize Progress.descend rules bias (ready.tree.moveBound horizon) horizon start []
        ready = descent at trails ends ⊢
      generalize Progress.descend rules' (change bias) (ready.tree.moveBound horizon) horizon
        start [] ready' = descent' at trails ends ⊢
      obtain ⟨last, trail, result⟩ := descent
      obtain ⟨last', trail', result'⟩ := descent'
      dsimp only at trails ends
      subst trails
      cases ends with
      | error failures leftovers =>
        refine .error failures ⟨?_, leftovers.source, leftovers.navigator⟩
        rw [leftovers.tree, Tree.rescale_dropVisits]
      | ok both =>
        obtain ⟨rfl, both⟩ := both
        have learnt := last.tree.rescale_backUp lockstep.rescaling trail
        rw [← both.tree] at learnt
        dsimp only
        rw [learnt]
        exact .ok ⟨rfl, rfl, both.source, both.navigator⟩

end Lockstep

variable {first : Progress σ υ S α} {second : Progress τ υ S α}

/-- Rewards that differ in the unit only make descents go side by side, whatever
the tree, if every move tunes the navigators. -/
theorem Tuning.lockstep (tuning : Tuning σ τ akin tuned) (rescaling : Rescaling change)
    (tolerance : rules'.tolerance = rules.tolerance)
    (reward : ∀ state label, rules'.reward state label = (rules.reward state label).map change)
    (bias : α) : Lockstep change Eq akin tuned rules rules' bias
      fun _ id (first : Progress σ υ S α) second =>
        Abreast.Meets change akin tuned id first second where
  rescaling := rescaling
  tolerance := tolerance
  refl _ := rfl
  looser := tuning.looser
  told := tuning.told
  abreast meet := meet.toAbreast
  moves meet _ _ := tuning.moves _ _ _ meet.navigator
  stays meet found role := meet.stays found role
  earns _ _ _ _ _ := reward _ _
  onward _ _ _ _ both := ⟨both.imp tuning.looser, fun _ _ => both.navigator⟩

/-- Rollouts from any node of any tree end alike, wherever their navigators
stand before, if every move tunes these. -/
theorem Abreast.rollout (tuning : Tuning σ τ akin tuned) (rescaling : Rescaling change)
    (tolerance : rules'.tolerance = rules.tolerance)
    (reward : ∀ state label, rules'.reward state label = (rules.reward state label).map change)
    (abreast : Abreast change akin first second) (start horizon : Nat) (bias : α) :
    Coupled Eq (Abreast change akin)
      (fun made made' last last' => made' = made.rescale change ∧ Abreast change akin last last')
      (first.rollout rules start horizon bias)
      (second.rollout rules' start horizon (change bias)) :=
  (tuning.lockstep rescaling tolerance reward bias).rollout abreast
    (abreast.approach tuning start)

end Together

end Progress

end HorizonUct
