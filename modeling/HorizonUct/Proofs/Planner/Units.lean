import Mathlib.Tactic.NormNum
import HorizonUct.Proofs.Planner.Appraisal
import HorizonUct.Proofs.Planner.Lockstep
import HorizonUct.Proofs.Policy.Rescaling

/-!
# The unit of rewards does not matter

If the bias is the mean return of the root, it is measured in the unit of the
rewards, and so is every term of every score. Searches for rewards in another
unit then make the same choices from their first rollout to their last, and
what they find differs in the unit only.
-/

namespace HorizonUct

open Attempt (Coupled)

variable {S α : Type} {change : α → α}

/-- An appraisal in another unit. -/
def Appraisal.rescale (change : α → α) (appraisal : Appraisal S α) : Appraisal S α :=
  { appraisal with
    estimate := change appraisal.estimate
    value := change appraisal.value }

/-- A planner with its rewards in another unit. -/
def Planner.rescale {σ υ : Type} (change : α → α) (planner : Planner σ υ S α) :
    Planner σ υ S α :=
  { planner with reward := fun state label => (planner.reward state label).map change }

variable [Scalar α] {findings findings' : Findings S α} {tolerance : α}
variable {reward reward' : S → String → Except (Failure α) α}

/-- What an appraisal is put together from. -/
theorem Findings.appraise_eq_ok {appraisal : Appraisal S α}
    (h : (findings.appraise reward tolerance).1 = .ok appraisal) :
    ∃ walk chain value, findings.tree.walkFrom 0 = .ok walk ∧
      Chain.ofTree findings.tree = .ok chain ∧ chain.value reward = .ok value ∧
        appraisal = ⟨findings.estimate, value, walk.actions, chain, findings.tally⟩ := by
  rw [appraise] at h
  cases walked : appraise.walked findings with
  | error failure =>
    rw [walked] at h
    cases h
  | ok found =>
    rw [walked] at h
    obtain ⟨walk, followed, told⟩ := Attempt.bind_eq_ok_iff.mp walked
    obtain ⟨events, -, told⟩ := Attempt.bind_eq_ok_iff.mp told
    cases told
    cases unrolled : Chain.ofTree findings.tree with
    | error failure =>
      rw [unrolled] at h
      cases h
    | ok chain =>
      rw [unrolled] at h
      dsimp only at h
      cases valued : appraise.valued reward tolerance chain with
      | error failure =>
        rw [valued] at h
        cases h
      | ok value =>
        rw [valued] at h
        obtain ⟨-, -, worth⟩ := Attempt.bind_eq_ok_iff.mp valued
        exact ⟨walk, chain, value, followed, rfl, worth, (Except.ok.inj h).symm⟩

/-- Appraisals of what differs in the unit only differ in the unit only. -/
theorem Findings.appraise_rescale (rescaling : Rescaling change)
    (paid : ∀ state label, reward' state label = (reward state label).map change)
    (tree : findings'.tree = findings.tree.rescale change)
    (tally : findings'.tally = findings.tally) {appraisal appraisal' : Appraisal S α}
    (h : (findings.appraise reward tolerance).1 = .ok appraisal)
    (h' : (findings'.appraise reward' tolerance).1 = .ok appraisal') :
    appraisal' = appraisal.rescale change := by
  obtain ⟨walk, chain, value, followed, unrolled, worth, rfl⟩ := appraise_eq_ok h
  obtain ⟨walk', chain', value', followed', unrolled', worth', rfl⟩ := appraise_eq_ok h'
  rw [tree, Tree.walkFrom_rescale rescaling, followed] at followed'
  obtain rfl : walk.rescale change = walk' := Except.ok.inj followed'
  rw [tree, Chain.ofTree_rescale rescaling, unrolled] at unrolled'
  obtain rfl : chain = chain' := Except.ok.inj unrolled'
  rw [Chain.value_rescale rescaling paid, worth] at worth'
  obtain rfl : change value = value' := Except.ok.inj worth'
  have estimate : findings'.estimate = change findings.estimate := by
    rw [Findings.estimate, tree, Tree.root_rescale]
    rfl
  rw [estimate, tally, Walk.actions_rescale]
  rfl

/-- Findings that differ in the unit only, and so do their appraisals. -/
structure Findings.InUnit (change : α → α) (reward : S → String → Except (Failure α) α)
    (tolerance : α) (findings findings' : Findings S α) : Prop where
  /-- The trees have the same nodes, but for the unit of the means. -/
  tree : findings'.tree = findings.tree.rescale change
  /-- The searches amounted to the same. -/
  tally : findings'.tally = findings.tally
  /-- The advice and the chain are the same, the estimates and the values differ in the unit. -/
  appraisal : ∃ appraisal, (findings.appraise reward tolerance).1 = .ok appraisal ∧
    (findings'.appraise (fun state label => (reward state label).map change) tolerance).1 =
      .ok (appraisal.rescale change)

/-- A search for rewards in another unit, with a bias that is taken along,
fails as the former one, or finds the same in that unit. -/
theorem Planner.search_rescale {σ υ : Type} [Navigator σ S α] [DrawSource υ α]
    (rescaling : Rescaling change) (planner : Planner σ υ S α)
    (weight : ∀ mean, planner.settings.bias.weight (change mean) =
      change (planner.settings.bias.weight mean)) (clock : Nat → Nat) (horizon budget : Nat) :
    Coupled Eq (fun last last' => last'.source = last.source)
      (fun findings findings' last last' =>
        findings.InUnit change planner.reward planner.settings.tolerance findings' ∧
          last'.source = last.source)
      (planner.searchWithin clock horizon budget)
      ((planner.rescale change).searchWithin clock horizon budget) := by
  have level : Level Eq planner (planner.rescale change) := ⟨rfl, rfl, rfl⟩
  have searched := level.search clock horizon budget (fun _ => rfl)
    (Progress.Tuning.same.pairing rescaling rfl (fun _ _ => rfl) weight) rfl
    fun {tree} planted => by
      obtain ⟨-, root, -, rfl⟩ := plant_eq_ok planted
      exact ⟨(Tree.rescale_ofRoot rescaling root).symm, rfl, rfl⟩
  generalize h : planner.searchWithin clock horizon budget = search at searched ⊢
  generalize h' : (planner.rescale change).searchWithin clock horizon budget = search'
    at searched ⊢
  cases searched with
  | error failures leftovers => exact .error failures leftovers.source
  | ok both =>
    obtain ⟨tree, tally, last⟩ := both
    obtain ⟨-, -, root, rollouts, -, explored⟩ := explored_of_search tracks_any trivial h
    obtain ⟨-, -, root', rollouts', -, explored'⟩ := explored_of_search tracks_any trivial h'
    obtain ⟨appraisal, appraised⟩ := Findings.appraise_ok explored
    obtain ⟨appraisal', appraised'⟩ := Findings.appraise_ok explored'
    have same := Findings.appraise_rescale rescaling (fun _ _ => rfl) tree tally appraised
      appraised'
    rw [same] at appraised'
    exact .ok ⟨⟨tree, tally, appraisal, appraised, appraised'⟩, last.source⟩

/-- In exact arithmetic, whatever the logarithm and the root, the mean of the
root as the bias makes a search indifferent to the scale of the rewards. If all
of them are multiplied by a positive factor, either both searches fail in the
same way, or both come to their end with the same tree, except that the means
are multiplied by the factor. Then the advice and the chain are the same, and
the chain is worth the former worth times the factor. -/
theorem Planner.search_indifferent_to_scale {σ υ K : Type} [Field K] [LinearOrder K]
    [IsStrictOrderedRing K] (ln sqrt : K → K) [Navigator σ S K] [DrawSource υ K] {factor : K}
    (positive : 0 < factor) (planner : Planner σ υ S K)
    (rootMean : planner.settings.bias = .rootMean) (clock : Nat → Nat) (horizon budget : Nat) :
    let _ := Scalar.exact ln sqrt
    Coupled Eq (fun last last' => last'.source = last.source)
      (fun findings findings' last last' =>
        findings.InUnit (factor * ·) planner.reward planner.settings.tolerance findings' ∧
          last'.source = last.source)
      (planner.searchWithin clock horizon budget)
      ((planner.rescale (factor * ·)).searchWithin clock horizon budget) := by
  intro _
  refine planner.search_rescale (Rescaling.factor ln sqrt positive) (fun mean => ?_) clock horizon
    budget
  rw [rootMean]
  rfl

/-- Four rollouts for threefold rewards find the same tree with threefold means. -/
theorem Fork.indifferent_to_threefold : ∃ findings findings' last last',
    planner.searchWithin (fun _ => 0) 2 4 = (.ok findings, last) ∧
      (planner.rescale (3 * ·)).searchWithin (fun _ => 0) 2 4 = (.ok findings', last') ∧
        findings.InUnit (3 * ·) planner.reward planner.settings.tolerance findings' ∧
          last'.source = last.source := by
  have ended : (planner.searchWithin (fun _ => 0) 2 4).1.isOk = true := by decide +kernel
  have both : Coupled Eq _ _ (planner.searchWithin (fun _ => 0) 2 4)
      ((planner.rescale (3 * ·)).searchWithin (fun _ => 0) 2 4) :=
    Planner.search_indifferent_to_scale (fun x => x) (fun x => x)
      (show (0 : ℚ) < 3 by norm_num) planner rfl (fun _ => 0) 2 4
  generalize planner.searchWithin (fun _ => 0) 2 4 = search at ended both ⊢
  generalize (planner.rescale (3 * ·)).searchWithin (fun _ => 0) 2 4 = search' at both ⊢
  cases both with
  | error => cases ended
  | ok both => exact ⟨_, _, _, _, rfl, rfl, both.1, both.2⟩

end HorizonUct
