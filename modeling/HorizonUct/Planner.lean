import HorizonUct.Rollout.Backup

/-!
# Planners

A planner is given a navigator, a reward rule, a source of draws and settings
that have been checked. Each search plants a new tree in the initial state and
grows it by rollouts from the root until its budget or its time is used up.
The bias of a rollout may depend on what the root has learnt from those before
it. Between searches the navigator stays where it is and the source goes on.

Time enters as a clock that tells how many milliseconds have passed when the
rollout with a given index is about to start. Nothing else depends on it.
-/

namespace HorizonUct

/-- What a search amounted to. -/
structure Tally where
  /-- The rollouts that were made. -/
  rollouts : Nat
  /-- The nodes of the tree. -/
  nodes : Nat
  /-- Those that stand for states. -/
  decisionNodes : Nat
  /-- Those that stand for actions. -/
  chanceNodes : Nat
  /-- The most actions that a rollout took. -/
  longest : Nat
deriving DecidableEq, Repr

/-- The line of a tally. -/
def Tally.line (tally : Tally) : String :=
  s!"{tally.rollouts} rollouts, {tally.nodes} nodes ({tally.decisionNodes} decision / " ++
    s!"{tally.chanceNodes} chance), max depth {tally.longest}"

/-- What a search found. -/
structure Findings (S α : Type) where
  /-- The tree. -/
  tree : Tree S α
  /-- What the search amounted to. -/
  tally : Tally

/-- What a search takes the initial state to be worth: the mean return of the root. -/
def Findings.estimate {S α : Type} (findings : Findings S α) : α := findings.tree.root.mean

/-- Rollouts made so far. -/
structure Batch (σ υ S α : Type) where
  /-- What the search has come to. -/
  progress : Progress σ υ S α
  /-- The rollouts that were made. -/
  rollouts : Nat
  /-- The most actions that a rollout took. -/
  longest : Nat

namespace Batch

variable {σ υ S α : Type}

/-- A batch without any rollouts. -/
def empty (progress : Progress σ υ S α) : Batch σ υ S α := ⟨progress, 0, 0⟩

/-- Make a rollout from the root and count it. -/
def advance [Navigator σ S α] [Scalar α] [DrawSource υ α] (rules : Rules S α)
    (settings : Settings α) (batch : Batch σ υ S α) : Except (Failure α) Unit × Batch σ υ S α :=
  let bias := settings.bias.weight batch.progress.tree.root.mean
  match batch.progress.rollout rules 0 settings.horizon bias with
  | (.error failure, progress) => (.error failure, { batch with progress := progress })
  | (.ok made, progress) =>
    (.ok (), {
      progress := progress.tell (.rolloutMade batch.rollouts bias made.total made.steps)
      rollouts := batch.rollouts + 1
      longest := max batch.longest made.steps })

/-- Make a rollout unless the time is used up after the given number of
milliseconds, and say whether to go on. -/
def turn [Navigator σ S α] [Scalar α] [DrawSource υ α] (rules : Rules S α)
    (settings : Settings α) (elapsed : Nat) (batch : Batch σ υ S α) :
    Except (Failure α) Bool × Batch σ υ S α :=
  match settings.timeLimit.filter (· ≤ elapsed) with
  | some limit =>
    (.ok false, { batch with progress := batch.progress.tell (.timeUsedUp limit batch.rollouts) })
  | none =>
    match batch.advance rules settings with
    | (.error failure, batch) => (.error failure, batch)
    | (.ok (), batch) => (.ok true, batch)

/-- Make rollouts until so many have been made or the time is used up. -/
def run [Navigator σ S α] [Scalar α] [DrawSource υ α] (rules : Rules S α)
    (settings : Settings α) (clock : Nat → Nat) :
    Nat → Batch σ υ S α → Except (Failure α) Unit × Batch σ υ S α
  | 0, batch => (.ok (), batch)
  | budget + 1, batch =>
    match batch.turn rules settings (clock batch.rollouts) with
    | (.error failure, batch) => (.error failure, batch)
    | (.ok false, batch) => (.ok (), batch)
    | (.ok true, batch) => run rules settings clock budget batch

/-- What a batch amounts to. -/
def tally (batch : Batch σ υ S α) : Tally where
  rollouts := batch.rollouts
  nodes := batch.progress.tree.size
  decisionNodes := batch.progress.tree.decisionNodes
  chanceNodes := batch.progress.tree.chanceNodes
  longest := batch.longest

end Batch

/-- Everything that a search needs. -/
structure Planner (σ υ S α : Type) where
  /-- The navigator. -/
  navigator : σ
  /-- What an action earns in a state. -/
  reward : S → String → Except (Failure α) α
  /-- The source of draws. -/
  source : υ
  /-- The settings. -/
  settings : Settings α
  /-- What has happened, latest first. -/
  journal : Journal α

namespace Planner

variable {σ υ S α : Type}

/-- A planner with the given settings, which are checked. -/
def create [Scalar α] (navigator : σ) (reward : S → String → Except (Failure α) α) (source : υ)
    (settings : Settings α) : Except (Failure α) (Planner σ υ S α) :=
  match settings.check with
  | .ok () => .ok ⟨navigator, reward, source, settings, []⟩
  | .error failure => .error failure

/-- The rules of the planner's rollouts. -/
def rules (planner : Planner σ υ S α) : Rules S α := ⟨planner.reward, planner.settings.tolerance⟩

/-- Where a rollout on a tree starts from. -/
def progress (planner : Planner σ υ S α) (tree : Tree S α) : Progress σ υ S α :=
  ⟨tree, planner.navigator, planner.source, planner.journal⟩

/-- Go on from where a rollout left the navigator, the source and the journal. -/
def resume (planner : Planner σ υ S α) (progress : Progress σ υ S α) : Planner σ υ S α :=
  { planner with
    navigator := progress.navigator
    source := progress.source
    journal := progress.journal }

/-- Make a rollout on a tree. -/
def rollout [Navigator σ S α] [Scalar α] [DrawSource υ α] (planner : Planner σ υ S α)
    (tree : Tree S α) (start horizon : Nat) (bias : α) :
    Except (Failure α) (Rollout α) × Tree S α × Planner σ υ S α :=
  let (result, progress) := (planner.progress tree).rollout planner.rules start horizon bias
  (result, progress.tree, planner.resume progress)

/-- Plant the tree of a search with the given settings. -/
def plant [Navigator σ S α] [Scalar α] (planner : Planner σ υ S α) (settings : Settings α) :
    Except (Failure α) (Tree S α) := do
  settings.check
  if ← Navigator.hasOneStart planner.navigator then
    return .ofRoot (← Navigator.start planner.navigator)
  else
    throw .ambiguousStart

/-- What the rollouts of a search found. -/
def finish (planner : Planner σ υ S α) (batch : Batch σ υ S α) :
    Findings S α × Planner σ υ S α :=
  let findings : Findings S α := ⟨batch.progress.tree, batch.tally⟩
  (findings, planner.resume
    (batch.progress.tell (.searchEnded findings.estimate findings.tally.rollouts)))

/-- Search with a horizon and a budget that take the place of those in the settings. -/
def searchWithin [Navigator σ S α] [Scalar α] [DrawSource υ α] (planner : Planner σ υ S α)
    (clock : Nat → Nat) (horizon budget : Nat) :
    Except (Failure α) (Findings S α) × Planner σ υ S α :=
  let settings := { planner.settings with horizon := horizon, budget := budget }
  match planner.plant settings with
  | .error failure => (.error failure, planner)
  | .ok tree =>
    let batch := Batch.empty ((planner.progress tree).tell (.searchBegun settings))
    match batch.run planner.rules settings clock budget with
    | (.error failure, batch) => (.error failure, planner.resume batch.progress)
    | (.ok (), batch) =>
      let (findings, planner) := planner.finish batch
      (.ok findings, planner)

/-- Search as the settings say. -/
def search [Navigator σ S α] [Scalar α] [DrawSource υ α] (planner : Planner σ υ S α)
    (clock : Nat → Nat) : Except (Failure α) (Findings S α) × Planner σ υ S α :=
  planner.searchWithin clock planner.settings.horizon planner.settings.budget

end Planner

end HorizonUct
