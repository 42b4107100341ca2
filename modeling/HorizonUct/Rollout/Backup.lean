import HorizonUct.Rollout.Descent

/-!
# The way back up

After a descent the rewards are added up from the last node to the first, and
each node learns the sum from itself on as one more return. If the descent
broke off there is nothing to learn: the visits that were counted are taken
back, and only the children that were made and the draws that were taken stay.
-/

namespace HorizonUct

/-- What a rollout was. -/
structure Rollout (α : Type) where
  /-- The sum of all rewards. -/
  total : α
  /-- The nodes on the way, each with the sum from it on. -/
  path : List (Nat × α)
  /-- How many actions were taken. -/
  steps : Nat
deriving DecidableEq, Repr

/-- Rewards added up from the end of a trail. -/
structure Backup (S α : Type) where
  /-- The sum so far. -/
  total : α
  /-- The nodes so far, the first one in front, each with the sum from it on. -/
  path : List (Nat × α)
  /-- The tree so far. -/
  tree : Tree S α

/-- Add what a node earned and let the node learn the sum. -/
def Backup.add {S α : Type} [Scalar α] (backup : Backup S α) (entry : Nat × α) : Backup S α :=
  let total := backup.total + entry.2
  ⟨total, (entry.1, total) :: backup.path, backup.tree.modify entry.1 (·.foldReturn total)⟩

namespace Tree

variable {S α : Type}

/-- Add up the rewards of a trail, latest node first. -/
def backUp [Scalar α] (tree : Tree S α) (trail : List (Nat × α)) : Backup S α :=
  trail.foldl Backup.add ⟨Scalar.zero, [], tree⟩

/-- Take back the visits counted along a trail. -/
def dropVisits (tree : Tree S α) (trail : List (Nat × α)) : Tree S α :=
  trail.foldl (fun tree (id, _) => tree.modify id Node.dropVisit) tree

end Tree

/-- Make a rollout from a node. A horizon of nought asks for nothing, not even
for the node to exist. -/
def Progress.rollout {σ υ S α : Type} [Navigator σ S α] [Scalar α] [DrawSource υ α]
    (rules : Rules S α) (progress : Progress σ υ S α) (start horizon : Nat) (bias : α) :
    Except (Failure α) (Rollout α) × Progress σ υ S α :=
  if horizon = 0 then (.ok ⟨Scalar.zero, [], 0⟩, progress)
  else match progress.approach start with
    | (.error failure, progress) => (.error failure, progress)
    | (.ok (), progress) =>
      match descend rules bias (progress.tree.moveBound horizon) horizon start [] progress with
      | ⟨progress, trail, .error failure⟩ =>
        (.error failure, { progress with tree := progress.tree.dropVisits trail })
      | ⟨progress, trail, .ok left⟩ =>
        let backup := progress.tree.backUp trail
        (.ok ⟨backup.total, backup.path, horizon - left⟩, { progress with tree := backup.tree })

end HorizonUct
