import HorizonUct.Planner
import HorizonUct.Policy.Value
import HorizonUct.Policy.Walk

/-!
# Appraisals

A search gives an estimate, which mixes in all that was tried along the way.
An appraisal sets beside it what the advice of the finished tree is worth when
it is followed without exception: the walk it leads along, the chain it
unrolls to, and the exact value of that chain.
-/

namespace HorizonUct

/-- What a search and its advice are worth. -/
structure Appraisal (S α : Type) where
  /-- The mean return of the root. -/
  estimate : α
  /-- The value of the chain. -/
  value : α
  /-- The actions of the greedy walk from the root. -/
  advice : List String
  /-- The chain that the tree unrolls to. -/
  chain : Chain S α
  /-- What the search amounted to. -/
  tally : Tally

/-- Appraise what a search found, with what enters the journal on the way. -/
def Findings.appraise {S α : Type} [Scalar α] (reward : S → String → Except (Failure α) α)
    (tolerance : α) (findings : Findings S α) : Except (Failure α) (Appraisal S α) × Journal α :=
  match walked with
  | .error failure => (.error failure, [])
  | .ok (walk, events) =>
    match Chain.ofTree findings.tree with
    | .error failure => (.error failure, events.reverse)
    | .ok chain =>
      let journal := chain.event :: events.reverse
      match valued chain with
      | .error failure => (.error failure, journal)
      | .ok value =>
        (.ok ⟨findings.estimate, value, walk.actions, chain, findings.tally⟩,
          .appraised findings.estimate value chain.size :: journal)
where
  /-- The greedy walk from the root and its events. -/
  walked : Except (Failure α) (Walk S α × List (Event α)) := do
    let walk ← findings.tree.walkFrom 0
    return (walk, ← findings.tree.walkEvents walk)
  /-- The value of a chain whose rows are in order. -/
  valued (chain : Chain S α) : Except (Failure α) α := do
    chain.checkRows tolerance
    chain.value reward

/-- Search and appraise. The planner that is returned holds the whole journal. -/
def Planner.appraise {σ υ S α : Type} [Navigator σ S α] [Scalar α] [DrawSource υ α]
    (planner : Planner σ υ S α) (clock : Nat → Nat) :
    Except (Failure α) (Appraisal S α) × Planner σ υ S α :=
  match planner.search clock with
  | (.error failure, planner) => (.error failure, planner)
  | (.ok findings, planner) =>
    let (appraisal, journal) := findings.appraise planner.reward planner.settings.tolerance
    (appraisal, { planner with journal := journal ++ planner.journal })

end HorizonUct
