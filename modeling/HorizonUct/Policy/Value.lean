import HorizonUct.Policy.Chain

/-!
# What a chain is worth

A chain is measured in one pass through its transitions, and evaluated in one
pass against them: since transitions lead to later situations, what may follow
a situation has been evaluated when its own turn comes. Of a chain with other
transitions the same passes are made, whatever they then mean.
-/

namespace HorizonUct.Chain

variable {S α : Type}

/-- Distances from the start found so far. -/
structure Distances where
  /-- The distance of each situation. -/
  found : Array Nat
  /-- The greatest distance met. -/
  farthest : Nat

/-- Put the target of a transition one step behind its source. -/
def Distances.follow (distances : Distances) (source target : Nat) : Except (Failure α) Distances :=
  match distances.found[source]? with
  | none => .error (.missingEntry source)
  | some distance =>
    if target < distances.found.size then
      .ok ⟨distances.found.setIfInBounds target (distance + 1),
        max distances.farthest (distance + 1)⟩
    else .error (.missingEntry target)

/-- How far a chain reaches: the greatest distance, following the transitions in order. -/
def reach (chain : Chain S α) : Except (Failure α) Nat := do
  let distances ← chain.transitions.foldlM
    (fun distances (source, target, _) => distances.follow source target)
    (⟨Array.replicate chain.size 0, 0⟩ : Distances)
  return distances.farthest

/-- Check that a row sums to one up to a tolerance, unless it is empty. -/
def checkRow [Scalar α] (chain : Chain S α) (tolerance : α) (index : Nat)
    (row : List (Nat × α)) : Except (Failure α) Unit := do
  let sum := Scalar.total (row.map (·.2))
  if !row.isEmpty && Scalar.lt tolerance (Scalar.abs (sum - Scalar.one)) then
    let situation ← chain.situation index
    throw (.notADistribution situation.node sum)

/-- Check the rows in order. -/
def checkRows [Scalar α] (chain : Chain S α) (tolerance : α) : Except (Failure α) Unit :=
  chain.rows.toList.zipIdx.forM fun (row, index) => chain.checkRow tolerance index row

/-- The expectation of given values over a row. -/
def expectation [Scalar α] (values : Array α) (row : List (Nat × α)) : Except (Failure α) α := do
  let terms ← row.mapM fun (target, probability) =>
    match values[target]? with
    | some value => .ok (probability * value)
    | none => .error (.missingEntry target)
  return Scalar.total terms

/-- Evaluate a situation: what its action earns, and what is expected to follow.
Without an action, or with nothing to follow, it stays worth nought. -/
def evaluate [Scalar α] (reward : S → String → Except (Failure α) α) (chain : Chain S α)
    (values : Array α) (index : Nat) : Except (Failure α) (Array α) := do
  let row ← chain.row index
  let here ← chain.situation index
  match here.action with
  | none => return values
  | some action =>
    if row.isEmpty then return values
    let earned ← reward here.state action
    let expected ← expectation values row
    return values.setIfInBounds index (earned + expected)

/-- What all situations are worth, evaluated from the last to the first. -/
def values [Scalar α] (reward : S → String → Except (Failure α) α) (chain : Chain S α) :
    Except (Failure α) (Array α) :=
  (List.range chain.size).reverse.foldlM (evaluate reward chain)
    (Array.replicate chain.size Scalar.zero)

/-- What a chain is worth: the reward that is expected in total from its start on. -/
def value [Scalar α] (reward : S → String → Except (Failure α) α) (chain : Chain S α) :
    Except (Failure α) α := do
  let values ← chain.values reward
  match values[chain.start]? with
  | some value => return value
  | none => throw (.missingEntry chain.start)

end HorizonUct.Chain
