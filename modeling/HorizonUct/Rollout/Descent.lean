import HorizonUct.Tree.Growth
import HorizonUct.Tree.Lottery
import HorizonUct.Tree.Ranking

/-!
# The way down

A rollout goes down from a node until as many actions have been taken as the
horizon allows, or a node turns out to have no children. It moves the
navigator along, makes the children of each node that has none yet, counts a
visit and goes on. The reward of an action is asked for in the state above it,
before its outcome is drawn.

Children come after their parent in the table, so no node is met twice. Going
through nodes that were there before, a descent makes fewer moves than the
tree has nodes; from then on states and actions alternate, so there are at
most two moves to an action. Their sum bounds the recursion.
-/

namespace HorizonUct

/-- What a rollout goes by. -/
structure Rules (S α : Type) where
  /-- What an action earns in a state. -/
  reward : S → String → Except (Failure α) α
  /-- How far outcome probabilities may be from one in sum. -/
  tolerance : α

/-- What a search has come to. -/
structure Progress (σ υ S α : Type) where
  /-- The tree so far. -/
  tree : Tree S α
  /-- The navigator, wherever it was left. -/
  navigator : σ
  /-- The source of draws. -/
  source : υ
  /-- What has happened, latest first. -/
  journal : Journal α

/-- Where a descent goes from a node. -/
inductive Move (α : Type) where
  /-- Nowhere: the node has no children. -/
  | stop
  /-- To the action that was selected. -/
  | pick (child : Nat)
  /-- To the outcome that was drawn, with what the action earned. -/
  | act (reward : α) (child : Nat)

/-- How far a descent got. -/
structure Descent (σ υ S α : Type) where
  /-- What the search has come to. -/
  progress : Progress σ υ S α
  /-- The nodes on the way with what each earned, latest first. -/
  trail : List (Nat × α)
  /-- How many actions were left, or why the descent broke off. -/
  result : Except (Failure α) Nat

/-- What the action of a node earns: the reward of its label in the state it belongs to. -/
def Tree.earned {S α : Type} (tree : Tree S α) (rules : Rules S α) (id : Nat) (label : String) :
    Except (Failure α) α := do
  match ← tree.stateOf id with
  | some state => rules.reward state label
  | none => throw (.navigation (.stateless id))

namespace Progress

variable {σ υ S α : Type}

/-- Enter an event in the journal. -/
def tell (progress : Progress σ υ S α) (event : Event α) : Progress σ υ S α :=
  { progress with journal := event :: progress.journal }

/-- Move the navigator to a state, if there is one to move to. -/
def stand [Navigator σ S α] (progress : Progress σ υ S α) :
    Option S → Except (Failure α) Unit × Progress σ υ S α
  | none => (.ok (), progress)
  | some state =>
    let (result, navigator) := Navigator.moveTo state progress.navigator
    (result, { progress with navigator := navigator })

/-- Get ready to start at a node. An action is taken in the state above it, so
the navigator moves there; a state needs no preparation. -/
def approach [Navigator σ S α] (progress : Progress σ υ S α) (id : Nat) :
    Except (Failure α) Unit × Progress σ υ S α :=
  match progress.tree.node id with
  | .error failure => (.error failure, progress)
  | .ok node =>
    if node.role.isDecision then (.ok (), progress)
    else match progress.tree.stateOf id with
      | .error failure => (.error failure, progress)
      | .ok none => (.error (.navigation (.stateless id)), progress)
      | .ok (some state) => progress.stand (some state)

/-- Come to a node: move to its state, if it is one, and see to its children. -/
def arrive [Navigator σ S α] [Scalar α] (progress : Progress σ υ S α) (id : Nat) :
    Except (Failure α) Unit × Progress σ υ S α :=
  match progress.tree.node id with
  | .error failure => (.error failure, progress)
  | .ok node =>
    match progress.stand node.role.state? with
    | (.error failure, progress) => (.error failure, progress)
    | (.ok (), progress) =>
      let (result, tree) := progress.tree.expand id progress.navigator
      (result, { progress with tree := tree })

/-- Leave a node: for the action that is selected, or, once the reward of an
action is known, for the outcome that is drawn. -/
def depart [Scalar α] [DrawSource υ α] (rules : Rules S α) (bias : α)
    (progress : Progress σ υ S α) (id : Nat) : Except (Failure α) (Move α) × Progress σ υ S α :=
  match progress.tree.node id with
  | .error failure => (.error failure, progress)
  | .ok node =>
    match node.role with
    | .decision _ =>
      match progress.tree.select id bias with
      | .error failure => (.error failure, progress)
      | .ok none => (.ok .stop, progress)
      | .ok (some child) => (.ok (.pick child), progress)
    | .chance _ label =>
      match progress.tree.earned rules id label with
      | .error failure => (.error failure, progress)
      | .ok reward =>
        match progress.tree.draw id rules.tolerance progress.source with
        | .error failure => (.error failure, progress)
        | .ok drawn =>
          (.ok (.act reward drawn.child),
            { progress with
              source := drawn.source
              journal := drawn.event.toList ++ progress.journal })

/-- Count a visit of a node. -/
def countVisit (progress : Progress σ υ S α) (id : Nat) : Progress σ υ S α :=
  { progress with tree := progress.tree.modify id Node.countVisit }

/-- Go down from a node. The first number bounds the moves, the second is how
many actions are left, the third is the node; the trail so far is passed on. -/
def descend [Navigator σ S α] [Scalar α] [DrawSource υ α] (rules : Rules S α) (bias : α) :
    Nat → Nat → Nat → List (Nat × α) → Progress σ υ S α → Descent σ υ S α
  | _, 0, _, trail, progress => ⟨progress, trail, .ok 0⟩
  | 0, _ + 1, _, trail, progress => ⟨progress, trail, .error .endlessWalk⟩
  | bound + 1, left + 1, id, trail, progress =>
    match progress.arrive id with
    | (.error failure, progress) => ⟨progress, trail, .error failure⟩
    | (.ok (), progress) =>
      match (progress.countVisit id).depart rules bias id with
      | (.error failure, progress) => ⟨progress, (id, Scalar.zero) :: trail, .error failure⟩
      | (.ok .stop, progress) =>
        ⟨progress.tell (.deadlockMet id), (id, Scalar.zero) :: trail, .ok (left + 1)⟩
      | (.ok (.pick child), progress) =>
        descend rules bias bound (left + 1) child ((id, Scalar.zero) :: trail) progress
      | (.ok (.act reward child), progress) =>
        descend rules bias bound left child ((id, reward) :: trail) progress

end Progress

/-- Enough moves for any descent through a tree that takes so many actions. -/
def Tree.moveBound {S α : Type} (tree : Tree S α) (horizon : Nat) : Nat :=
  2 * horizon + tree.size + 1

end HorizonUct
