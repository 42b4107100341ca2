import HorizonUct.Policy.Value
import HorizonUct.Proofs.Policy.Unfolding
import HorizonUct.Proofs.Rollout.Route

/-!
# Chains of a sampled tree can be checked and evaluated

Where every visited action of a tree has earned something, and its
probabilities make a distribution, the chain that the tree unrolls to asks for
nothing else: a row is either empty or has the probabilities of a visited
action, and the reward of that action in the state above it is known.
-/

namespace HorizonUct

variable {S α : Type} [Scalar α]

/-- Every visited action has earned something, and its probabilities make a distribution. -/
def Tree.Sampled (rules : Rules S α) (tree : Tree S α) : Prop :=
  ∀ ⦃id index : Nat⦄ ⦃label : String⦄ ⦃node : Node S α⦄, tree.nodes[id]? = some node →
    node.role = .chance index label → 0 < node.visits →
      (∃ reward, tree.earned rules id label = .ok reward) ∧ tree.Fair rules.tolerance id

namespace Chain

variable {tree : Tree S α} {chain : Chain S α} {rules : Rules S α}

/-- A row that is advised in a sampled tree is empty or a distribution, and
then the reward of the action is known in its situation. -/
theorem Advised.sampled {size : Nat} {here : Situation S} {row : List (Nat × α)}
    (advised : Advised tree size here row) (sampled : tree.Sampled rules) {node : Node S α}
    (found : tree.nodes[here.node]? = some node) (role : node.role = .decision here.state) :
    (here.action = none ∧ row = []) ∨ ∃ label reward, here.action = some label ∧
      rules.reward here.state label = .ok reward ∧
        isDistribution rules.tolerance (row.map Prod.snd) = true ∧
          ∀ entry ∈ row, entry.1 < size := by
  cases advised with
  | nothing _ taken empty => exact .inl ⟨taken, empty⟩
  | @favourite _ _ _ label _ _ there parent visited chance taken looked weights targets =>
    obtain ⟨⟨reward, earned⟩, children, looked', -, fair⟩ := sampled there chance visited
    obtain ⟨state, owner, told⟩ := Tree.earned_eq_ok_iff.mp earned
    have above := Tree.stateOf_chance there (by rw [chance]; rfl) parent found role
    rw [above, Except.ok.injEq, Option.some.injEq] at owner
    rw [looked, Except.ok.injEq] at looked'
    rw [← owner] at told
    rw [← looked', ← weights] at fair
    exact .inr ⟨label, reward, taken, told, fair, targets⟩

/-- An empty row passes the check. -/
theorem checkRow_nil (chain : Chain S α) (tolerance : α) (index : Nat) :
    chain.checkRow tolerance index [] = .ok () := rfl

/-- A row that is a distribution passes the check. -/
theorem checkRow_of_isDistribution {tolerance : α} {row : List (Nat × α)}
    (fair : isDistribution tolerance (row.map Prod.snd) = true) (chain : Chain S α) (index : Nat) :
    chain.checkRow tolerance index row = .ok () := by
  rw [isDistribution, Bool.and_eq_true, Bool.not_eq_true'] at fair
  rw [checkRow, fair.2, Bool.and_false]
  rfl

/-- The rows of a chain that traces a sampled tree pass the check. -/
theorem Traces.checkRows (traces : Traces tree chain) (sampled : tree.Sampled rules) :
    chain.checkRows rules.tolerance = .ok () := by
  refine Attempt.forM_eq_ok_iff.mpr fun (row, index) hm => ?_
  have hr := List.mem_zipIdx_iff_getElem?.mp hm
  rw [Array.getElem?_toList] at hr
  obtain ⟨here, hs, advised⟩ := traces.advised hr
  obtain ⟨node, found, role⟩ := traces.decisions hs
  rcases advised.sampled sampled found role with ⟨-, rfl⟩ | ⟨-, -, -, -, fair, -⟩
  · exact checkRow_nil chain _ _
  · exact checkRow_of_isDistribution fair chain _

/-- The expectation over a row is told if its targets have values. -/
theorem expectation_ok {values : Array α} {row : List (Nat × α)}
    (h : ∀ entry ∈ row, entry.1 < values.size) :
    ∃ expected, (expectation values row : Except (Failure α) α) = .ok expected := by
  rw [expectation]
  refine Attempt.exists_bind_ok (Attempt.mapM_ok fun entry he => ?_) fun terms => ⟨_, rfl⟩
  dsimp only
  rw [Array.getElem?_eq_getElem (h entry he)]
  exact ⟨_, rfl⟩

/-- A situation of a chain that traces a sampled tree can be evaluated. -/
theorem Traces.evaluate (traces : Traces tree chain) (whole : chain.rows.size = chain.size)
    (sampled : tree.Sampled rules) {values : Array α} (fits : values.size = chain.size)
    {index : Nat} (h : index < chain.size) : ∃ next : Array α,
      chain.evaluate rules.reward values index = .ok next ∧ next.size = chain.size := by
  have hr : chain.rows[index]? = some chain.rows[index] := Array.getElem?_eq_getElem (whole ▸ h)
  obtain ⟨here, hs, advised⟩ := traces.advised hr
  obtain ⟨node, found, role⟩ := traces.decisions hs
  generalize chain.rows[index] = row at hr advised
  have hrow : chain.row index = .ok row := by rw [Chain.row, hr]
  have hhere : chain.situation index = .ok here := by rw [Chain.situation, hs]
  rw [Chain.evaluate, hrow, hhere]
  dsimp only [bind, Except.bind]
  rcases advised.sampled sampled found role with
    ⟨none, -⟩ | ⟨label, reward, taken, told, -, targets⟩
  · rw [none]
    exact ⟨values, rfl, fits⟩
  · rw [taken]
    dsimp only
    split
    · exact ⟨values, rfl, fits⟩
    · obtain ⟨expected, he⟩ := expectation_ok fun entry hm => fits ▸ targets entry hm
      rw [told, he]
      exact ⟨_, rfl, by rw [Array.size_setIfInBounds, fits]⟩

/-- A chain that traces a sampled tree has a value. -/
theorem Traces.value (traces : Traces tree chain) (whole : chain.rows.size = chain.size)
    (sampled : tree.Sampled rules) : ∃ value, chain.value rules.reward = .ok value := by
  have step : ∀ (values : Array α), ∀ index ∈ (List.range chain.size).reverse,
      values.size = chain.size → ∃ next, chain.evaluate rules.reward values index = .ok next ∧
        next.size = chain.size := by
    intro values index hi fits
    rw [List.mem_reverse, List.mem_range] at hi
    exact traces.evaluate whole sampled fits hi
  obtain ⟨values, hv, fits⟩ :=
    Attempt.foldlM_ok step (Array.size_replicate : (Array.replicate chain.size _).size = _)
  obtain ⟨first, hf, -⟩ := traces.root
  have hpos : 0 < values.size := fits ▸ lt_size hf
  refine ⟨values[0], Attempt.bind_eq_ok_iff.mpr ⟨values, hv, ?_⟩⟩
  rw [traces.start, Array.getElem?_eq_getElem hpos]
  rfl

end Chain

end HorizonUct
