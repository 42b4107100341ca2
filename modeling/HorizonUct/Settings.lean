import HorizonUct.Failure
import HorizonUct.Scalar

/-!
# Settings of a search

A search is given a horizon, a budget of rollouts, a bias towards exploration,
a seed, a tolerance for outcome probabilities and a limit on time. Faults are
looked for in the horizon, the budget, the tolerance and the bias, in this
order, and the first one is reported.
-/

namespace HorizonUct

/-- How much weight exploration has against the mean return. -/
inductive Bias (α : Type) where
  /-- The mean return of the root at the start of each rollout. -/
  | rootMean
  /-- A fixed weight. -/
  | fixed (weight : α)
deriving DecidableEq, Repr

/-- The weight of exploration when the root has the given mean return. -/
def Bias.weight {α : Type} (bias : Bias α) (rootMean : α) : α :=
  match bias with
  | .rootMean => rootMean
  | .fixed weight => weight

/-- The settings of a search. -/
structure Settings (α : Type) where
  /-- How many actions a rollout takes at most. -/
  horizon : Nat
  /-- How many rollouts are made. -/
  budget : Nat
  /-- The exploration bias. -/
  bias : Bias α
  /-- The seed of the draws, if one is given. -/
  seed : Option Nat
  /-- How far the outcome probabilities of an action may be from one in sum. -/
  tolerance : α
  /-- After how many milliseconds no further rollout starts, if ever. -/
  timeLimit : Option Nat
deriving DecidableEq, Repr

namespace Settings

variable {α : Type} [Scalar α]

/-- Check that a search can run with the settings. -/
def check (settings : Settings α) : Except (Failure α) Unit :=
  if settings.horizon = 0 then .error (.setting .horizon)
  else if settings.budget = 0 then .error (.setting .budget)
  else if !Scalar.isFinite settings.tolerance || Scalar.le settings.tolerance Scalar.zero then
    .error (.setting (.tolerance settings.tolerance))
  else match settings.bias with
    | .fixed weight =>
      if Scalar.isFinite weight then .ok () else .error (.setting (.bias weight))
    | .rootMean => .ok ()

/-- Accepted settings have a horizon, a budget and a finite positive tolerance. -/
theorem of_check {settings : Settings α} (h : settings.check = .ok ()) :
    0 < settings.horizon ∧ 0 < settings.budget ∧
      Scalar.isFinite settings.tolerance = true ∧
      Scalar.le settings.tolerance Scalar.zero = false := by
  unfold check at h
  split at h
  · cases h
  · split at h
    · cases h
    · split at h
      · cases h
      · simp_all; omega

end Settings

/-- The settings of a search for which nothing else is given. -/
def Settings.standard : Settings Float where
  horizon := 5
  budget := 10000
  bias := .rootMean
  seed := none
  tolerance := 1e-5
  timeLimit := none

end HorizonUct
