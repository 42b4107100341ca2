import HorizonUct.Planner.Appraisal
import HorizonUct.Proofs.Fork
import HorizonUct.Proofs.Planner.Conservation
import HorizonUct.Proofs.Policy.Walk
import HorizonUct.Proofs.Policy.Worth

/-!
# After a search nothing fails

What is asked of a searched tree afterwards has been asked before: the chain
has the probabilities that draws were made from and the rewards that rollouts
have earned. So an appraisal fails only where the search does.
-/

namespace HorizonUct

variable {σ υ S α : Type} [Navigator σ S α] [Scalar α]

/-- In an explored tree every visited action has been rewarded and drawn from. -/
theorem Tree.Explored.sampled {kind : σ → Prop} {root : S} {rules : Rules S α} {horizon : Nat}
    {rollouts : List (Rollout α)} {tree : Tree S α}
    (explored : tree.Explored kind root rules horizon rollouts) : tree.Sampled rules := by
  intro id index label node found role visited
  rw [explored.visits found, List.count_pos_iff] at visited
  obtain ⟨rollout, hr, passed⟩ := List.mem_flatMap.mp visited
  obtain ⟨way, rest, route, path⟩ := explored.routed rollout hr
  rw [path, fst_returnsOf] at passed
  exact route.sampled passed found role

/-- A tree that was explored unrolls to a chain that passes the check and has a value. -/
theorem Tree.Explored.chain_ok {kind : σ → Prop} {root : S} {rules : Rules S α} {horizon : Nat}
    {rollouts : List (Rollout α)} {tree : Tree S α}
    (explored : tree.Explored kind root rules horizon rollouts) :
    ∃ chain value, Chain.ofTree tree = .ok chain ∧ chain.checkRows rules.tolerance = .ok () ∧
      chain.value rules.reward = .ok value := by
  have sampled := explored.sampled
  obtain ⟨chain, unrolled, traces, whole⟩ := Chain.ofTree_ok explored.grown.layered
  obtain ⟨value, worth⟩ := traces.value whole sampled
  exact ⟨chain, value, unrolled, traces.checkRows sampled, worth⟩

/-- Findings whose tree was explored can be appraised. -/
theorem Findings.appraise_ok {kind : σ → Prop} {root : S} {rules : Rules S α} {horizon : Nat}
    {rollouts : List (Rollout α)} {findings : Findings S α}
    (explored : findings.tree.Explored kind root rules horizon rollouts) :
    ∃ appraisal, (findings.appraise rules.reward rules.tolerance).1 = .ok appraisal := by
  obtain ⟨walk, events, followed, told⟩ := explored.grown.layered.toLinked.walk_ok
  obtain ⟨chain, value, unrolled, checked, worth⟩ := explored.chain_ok
  have walked : Findings.appraise.walked findings = .ok (walk, events) := by
    rw [Findings.appraise.walked, followed]
    exact Attempt.bind_eq_ok_iff.mpr
      ⟨walk, rfl, Attempt.bind_eq_ok_iff.mpr ⟨events, told, rfl⟩⟩
  have valued : Findings.appraise.valued rules.reward rules.tolerance chain = .ok value := by
    rw [Findings.appraise.valued, checked]
    exact worth
  rw [Findings.appraise, walked]
  dsimp only
  rw [unrolled]
  dsimp only
  rw [valued]
  exact ⟨_, rfl⟩

variable {υ : Type} [DrawSource υ α]

/-- An appraisal fails only if the search does, and with the same failure. -/
theorem Planner.search_of_appraise_eq_error {planner : Planner σ υ S α} {clock : Nat → Nat}
    {failure : Failure α} (h : (planner.appraise clock).1 = .error failure) :
    (planner.search clock).1 = .error failure := by
  rw [Planner.appraise] at h
  cases hs : planner.search clock with
  | mk result planner' =>
    rw [hs] at h
    cases result with
    | error failure' =>
      cases h
      rfl
    | ok findings =>
      obtain ⟨-, ⟨reward, settings⟩, root, rollouts, -, explored⟩ :=
        Planner.explored_of_search tracks_any trivial hs
      obtain ⟨appraisal, ha⟩ := Findings.appraise_ok explored
      dsimp only at h
      rw [reward, settings] at h
      rw [show (findings.appraise planner.reward planner.settings.tolerance).1 = _ from ha] at h
      cases h

/-- After a search that comes to its end its tree unrolls to a chain, the chain
passes the check with the tolerance of the search and has a value under its
rewards. So planning and appraising fails only where creating the planner or
searching does, and with the same failure. -/
theorem Planner.nothing_fails_after_search (clock : Nat → Nat) :
    (∀ (planner planner' : Planner σ υ S α) (findings : Findings S α),
      planner.search clock = (.ok findings, planner') →
        ∃ chain value, Chain.ofTree findings.tree = .ok chain ∧
          chain.checkRows planner.settings.tolerance = .ok () ∧
            chain.value planner.reward = .ok value) ∧
      ∀ (navigator : σ) (reward : S → String → Except (Failure α) α) (source : υ)
        (settings : Settings α) (failure : Failure α),
        (Planner.create navigator reward source settings >>= fun planner =>
          (planner.appraise clock).1) = .error failure →
          Planner.create navigator reward source settings = .error failure ∨
            ∃ planner, Planner.create navigator reward source settings = .ok planner ∧
              (planner.search clock).1 = .error failure := by
  constructor
  · intro planner planner' findings h
    obtain ⟨-, -, root, rollouts, -, explored⟩ :=
      Planner.explored_of_search tracks_any trivial h
    exact explored.chain_ok
  · intro navigator reward source settings failure h
    cases hc : Planner.create navigator reward source settings with
    | error failure' =>
      rw [hc] at h
      cases h
      exact .inl rfl
    | ok planner =>
      rw [hc] at h
      exact .inr ⟨planner, rfl, search_of_appraise_eq_error h⟩

/-- A search of two actions ahead comes to its end, and its chain can be
checked and evaluated. One of four breaks off, and so does its appraisal. -/
theorem Fork.nothing_fails_after_two : (∃ findings planner',
    planner.search (fun _ => 0) = (.ok findings, planner') ∧
      ∃ chain value, Chain.ofTree findings.tree = .ok chain ∧
        chain.checkRows planner.settings.tolerance = .ok () ∧
          chain.value planner.reward = .ok value) ∧
    ∃ failure, (farsighted >>= fun planner => (planner.appraise fun _ => 0).1) = .error failure ∧
      (farsighted = .error failure ∨
        ∃ planner, farsighted = .ok planner ∧ (planner.search fun _ => 0).1 = .error failure) := by
  have always := @Planner.nothing_fails_after_search (Cursor ℚ) Nat ℚ _ _ (Replay ℚ) _ fun _ => 0
  constructor
  · have ended : (planner.search fun _ => 0).1.isOk = true := by decide +kernel
    rcases h : planner.search (fun _ => 0) with ⟨_ | findings, planner'⟩
    · rw [h] at ended
      cases ended
    · exact ⟨findings, planner', rfl, always.1 planner planner' findings h⟩
  · have broken : (farsighted >>= fun planner => (planner.appraise fun _ => 0).1).isOk = false := by
      decide +kernel
    rcases h : (farsighted >>= fun planner => (planner.appraise fun _ => 0).1) with
      failure | appraisal
    · exact ⟨failure, rfl,
        always.2 (.ofMdp table) reward draws { settings with horizon := 4 } failure h⟩
    · rw [h] at broken
      cases broken

end HorizonUct
