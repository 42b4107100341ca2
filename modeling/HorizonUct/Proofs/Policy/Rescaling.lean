import HorizonUct.Policy.Value
import HorizonUct.Policy.Walk
import HorizonUct.Proofs.Tree.Rescaling

/-!
# Advice in another unit

A tree in another unit gives the same advice: the greedy walk passes the same
nodes, and the chain is the same. What the chain is worth, with the rewards in
that unit too, is its former worth in that unit.
-/

namespace HorizonUct

variable {S α : Type} [Scalar α] {change : α → α}

/-- A sum is taken along into another unit. -/
theorem Rescaling.total (rescaling : Rescaling change) (values : List α) :
    change (Scalar.total values) = Scalar.total (values.map change) := by
  have key : ∀ start : α, change (values.foldl (· + ·) start) =
      (values.map change).foldl (· + ·) (change start) := by
    induction values with
    | nil => exact fun _ => rfl
    | cons value rest ih =>
      intro start
      rw [List.foldl_cons, ih, rescaling.add, List.map_cons, List.foldl_cons]
  rw [Scalar.total, key, rescaling.none, Scalar.total]

/-- A stop with its mean in another unit. -/
def Stop.rescale {S α : Type} (change : α → α) (stop : Stop S α) : Stop S α :=
  { stop with mean := change stop.mean }

/-- A walk with its means in another unit. -/
def Walk.rescale {S α : Type} (change : α → α) (walk : Walk S α) : Walk S α :=
  ⟨walk.stops.map (Stop.rescale change), walk.last⟩

/-- A walk has the same actions in any unit. -/
theorem Walk.actions_rescale {S α : Type} (change : α → α) (walk : Walk S α) :
    (walk.rescale change).actions = walk.actions :=
  List.filterMap_map

/-- The walk from a node takes the same way in any unit. -/
theorem Tree.walkWithin_rescale (rescaling : Rescaling change) (tree : Tree S α) (bound id : Nat) :
    (tree.rescale change).walkWithin bound id =
      (tree.walkWithin bound id).map (Walk.rescale change) := by
  induction bound generalizing id with
  | zero =>
    rw [walkWithin, walkWithin, node_rescale, favourite_rescale tree id rescaling]
    cases tree.node id with
    | error failure => rfl
    | ok node =>
      cases tree.favourite id with
      | error failure => rfl
      | ok next? => cases next? <;> rfl
  | succ bound ih =>
    rw [walkWithin, walkWithin, node_rescale, favourite_rescale tree id rescaling]
    cases tree.node id with
    | error failure => rfl
    | ok node =>
      cases tree.favourite id with
      | error failure => rfl
      | ok next? =>
        cases next? with
        | none => rfl
        | some next =>
          simp only [Except.map, ih]
          cases tree.walkWithin bound next <;> rfl

/-- The walk from a node in another unit. -/
theorem Tree.walkFrom_rescale (rescaling : Rescaling change) (tree : Tree S α) (start : Nat) :
    (tree.rescale change).walkFrom start = (tree.walkFrom start).map (Walk.rescale change) := by
  rw [walkFrom, walkFrom, size_rescale, walkWithin_rescale rescaling]

namespace Chain

/-- The same row is filled in next in any unit. -/
theorem fillNext_rescale (rescaling : Rescaling change) (tree : Tree S α) (chain : Chain S α) :
    chain.fillNext (tree.rescale change) = chain.fillNext tree := by
  rw [fillNext, fillNext]
  cases chain.situations[chain.rows.size]? with
  | none => rfl
  | some here =>
    simp only [tree.favourite_rescale here.node rescaling]
    refine congrArg (tree.favourite here.node >>= ·) (funext fun best? => ?_)
    cases best? with
    | none => rfl
    | some best =>
      simp only [Tree.node_rescale, Tree.children_rescale]
      cases tree.node best with
      | error failure => rfl
      | ok action =>
        cases tree.children best with
        | error failure => rfl
        | ok outcomes =>
          have same : unrolled (outcomes.map fun entry => (entry.1, entry.2.rescale change)) =
              unrolled outcomes := List.filterMap_map
          exact congrArg (fun following => Except.ok
            (some (chain.fillRow action.role.label? following))) same

/-- The same chain is filled in in any unit. -/
theorem fill_rescale (rescaling : Rescaling change) (tree : Tree S α) (bound : Nat)
    (chain : Chain S α) : fill (tree.rescale change) bound chain = fill tree bound chain := by
  induction bound generalizing chain with
  | zero =>
    rw [fill.eq_def, fill.eq_def]
    dsimp only
    rw [fillNext_rescale rescaling]
    cases chain.fillNext tree with
    | error failure => rfl
    | ok next? => cases next? <;> rfl
  | succ bound ih =>
    rw [fill.eq_def, fill.eq_def]
    dsimp only
    rw [fillNext_rescale rescaling]
    cases chain.fillNext tree with
    | error failure => rfl
    | ok next? =>
      cases next? with
      | none => rfl
      | some next => exact ih next

/-- A tree unrolls to the same chain in any unit. -/
theorem ofTree_rescale (rescaling : Rescaling change) (tree : Tree S α) :
    ofTree (tree.rescale change) = ofTree tree := by
  have role : (tree.rescale change).root.role = tree.root.role := by
    rw [Tree.root_rescale, Node.rescale]
  rw [ofTree, ofTree, role, Tree.size_rescale]
  simp only [fill_rescale rescaling]

/-- What a transition contributes to an expectation. -/
def term (values : Array α) (entry : Nat × α) : Except (Failure α) α :=
  match values[entry.1]? with
  | some value => .ok (entry.2 * value)
  | none => .error (.missingEntry entry.1)

/-- An expectation is the sum of what the transitions contribute. -/
theorem expectation_eq (values : Array α) (row : List (Nat × α)) :
    expectation values row = (row.mapM (term values)).map Scalar.total := rfl

/-- What a transition contributes in another unit. -/
theorem term_rescale (rescaling : Rescaling change) (values : Array α) (entry : Nat × α) :
    term (values.map change) entry = (term values entry).map change := by
  rw [term, term, Array.getElem?_map]
  cases values[entry.1]? with
  | none => rfl
  | some value => exact congrArg Except.ok (rescaling.share entry.2 value).symm

/-- An expectation over a row in another unit. -/
theorem expectation_rescale (rescaling : Rescaling change) (values : Array α)
    (row : List (Nat × α)) :
    expectation (values.map change) row = (expectation values row).map change := by
  have terms := (congrArg row.mapM (funext (term_rescale rescaling values))).trans
    (Attempt.mapM_map_results _ change row)
  rw [expectation_eq, expectation_eq, terms]
  cases row.mapM (term values) with
  | error failure => rfl
  | ok terms => exact congrArg Except.ok (rescaling.total terms).symm

variable {reward reward' : S → String → Except (Failure α) α}

/-- Evaluating a situation in another unit. -/
theorem evaluate_rescale (rescaling : Rescaling change)
    (paid : ∀ state label, reward' state label = (reward state label).map change)
    (chain : Chain S α) (values : Array α) (index : Nat) :
    evaluate reward' chain (values.map change) index =
      (evaluate reward chain values index).map (Array.map change) := by
  rw [evaluate, evaluate]
  cases chain.row index with
  | error failure => rfl
  | ok row =>
    cases chain.situation index with
    | error failure => rfl
    | ok here =>
      obtain ⟨state, node, action?⟩ := here
      cases action? with
      | none => rfl
      | some action =>
        show (if row.isEmpty then _ else _ : Except (Failure α) (Array α)) =
          (if row.isEmpty then _ else _ : Except (Failure α) (Array α)).map _
        split
        · rfl
        · rw [paid, expectation_rescale rescaling]
          cases reward state action with
          | error failure => rfl
          | ok earned =>
            cases expectation values row with
            | error failure => rfl
            | ok expected =>
              refine congrArg Except.ok ?_
              rw [Array.map_setIfInBounds, rescaling.add]

/-- What the situations of a chain are worth in another unit. -/
theorem values_rescale (rescaling : Rescaling change)
    (paid : ∀ state label, reward' state label = (reward state label).map change)
    (chain : Chain S α) :
    chain.values reward' = (chain.values reward).map (Array.map change) := by
  have folded := Attempt.foldlM_map
    (fun values index (_ : index ∈ (List.range chain.size).reverse) =>
      evaluate_rescale rescaling paid chain values index) (Array.replicate chain.size Scalar.zero)
  rw [Array.map_replicate, rescaling.zero] at folded
  exact folded

/-- What a chain is worth in another unit. -/
theorem value_rescale (rescaling : Rescaling change)
    (paid : ∀ state label, reward' state label = (reward state label).map change)
    (chain : Chain S α) : chain.value reward' = (chain.value reward).map change := by
  rw [value, value, values_rescale rescaling paid]
  cases chain.values reward with
  | error failure => rfl
  | ok values =>
    show (match (values.map change)[chain.start]? with
      | some value => _
      | none => _) = (match values[chain.start]? with
      | some value => _
      | none => _ : Except (Failure α) α).map change
    rw [Array.getElem?_map]
    cases values[chain.start]? <;> rfl

end Chain

end HorizonUct
