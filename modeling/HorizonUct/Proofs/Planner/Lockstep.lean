import HorizonUct.Proofs.Planner.Exploration
import HorizonUct.Proofs.Rollout.Lockstep

/-!
# Searches side by side

If each rollout of one search goes side by side with that of another, so do
the searches. Both read the same clock, so they make as many rollouts.
-/

namespace HorizonUct

open Attempt (Coupled)
open Progress (Abreast)

variable {σ τ υ S α : Type} {change : α → α} {alike : Failure α → Failure α → Prop}
variable {akin : σ → τ → Prop} {pair : Progress σ υ S α → Progress τ υ S α → Prop}

namespace Batch

/-- Batches that have come to the same, as far as `pair` says. -/
structure Level (pair : Progress σ υ S α → Progress τ υ S α → Prop) (first : Batch σ υ S α)
    (second : Batch τ υ S α) : Prop where
  /-- The searches have come to the same. -/
  progress : pair first.progress second.progress
  /-- As many rollouts were made. -/
  rollouts : second.rollouts = first.rollouts
  /-- The longest of them took as many actions. -/
  longest : second.longest = first.longest

variable {first : Batch σ υ S α} {second : Batch τ υ S α}

/-- What batches amount to is the same in any unit. -/
theorem Level.tally (level : Level (Abreast change akin) first second) :
    second.tally = first.tally := by
  rw [Batch.tally, Batch.tally, level.rollouts, level.longest, level.progress.tree,
    Tree.size_rescale, Tree.decisionNodes_rescale, Tree.chanceNodes_rescale]

end Batch

/-- Planners that differ in where their navigators stand and in the unit. -/
structure Planner.Level (akin : σ → τ → Prop) (first : Planner σ υ S α)
    (second : Planner τ υ S α) : Prop where
  /-- The navigators are in the relation. -/
  navigator : akin first.navigator second.navigator
  /-- The settings are the same. -/
  settings : second.settings = first.settings
  /-- As many draws have been taken. -/
  source : second.source = first.source

variable [Navigator σ S α] [Navigator τ S α] [Scalar α] [DrawSource υ α]
variable {rules rules' : Rules S α} {settings : Settings α}

/-- Searches of which `pair` holds go on side by side from rollout to rollout. -/
structure Pairing (change : α → α) (alike : Failure α → Failure α → Prop) (akin : σ → τ → Prop)
    (rules rules' : Rules S α) (settings : Settings α)
    (pair : Progress σ υ S α → Progress τ υ S α → Prop) : Prop where
  /-- They are abreast. -/
  abreast : ∀ {first : Progress σ υ S α} {second : Progress τ υ S α}, pair first second →
    Abreast change akin first second
  /-- What is entered in the journals makes no difference. -/
  tell : ∀ {first : Progress σ υ S α} {second : Progress τ υ S α} (event event' : Event α),
    pair first second → pair (first.tell event) (second.tell event')
  /-- The bias is taken along with the mean of the root. -/
  weight : ∀ mean : α, settings.bias.weight (change mean) = change (settings.bias.weight mean)
  /-- Rollouts from the root end alike, and the next ones can follow. -/
  rollout : ∀ {first : Progress σ υ S α} {second : Progress τ υ S α} (bias : α),
    pair first second → Coupled alike (Abreast change akin)
      (fun made made' last last' => made' = made.rescale change ∧ pair last last')
      (first.rollout rules 0 settings.horizon bias)
      (second.rollout rules' 0 settings.horizon (change bias))

/-- Searches that are tuned by every move go on side by side. -/
theorem Progress.Tuning.pairing {tuned : σ → τ → Prop} (tuning : Tuning σ τ akin tuned)
    (rescaling : Rescaling change) (tolerance : rules'.tolerance = rules.tolerance)
    (reward : ∀ state label, rules'.reward state label = (rules.reward state label).map change)
    (weight : ∀ mean, settings.bias.weight (change mean) = change (settings.bias.weight mean)) :
    Pairing change Eq akin rules rules' settings
      (Abreast change akin : Progress σ υ S α → Progress τ υ S α → Prop) where
  abreast abreast := abreast
  tell event event' abreast := abreast.tell event event'
  weight := weight
  rollout bias abreast := abreast.rollout tuning rescaling tolerance reward 0 settings.horizon bias

namespace Batch

variable {first : Batch σ υ S α} {second : Batch τ υ S α}

/-- One more rollout from the root ends alike for both. -/
theorem Level.advance (pairing : Pairing change alike akin rules rules' settings pair)
    (level : Level pair first second) :
    Coupled alike (fun last last' => Abreast change akin last.progress last'.progress)
      (fun _ _ => Level pair) (first.advance rules settings) (second.advance rules' settings) := by
  have rolled := pairing.rollout (settings.bias.weight first.progress.tree.root.mean)
    level.progress
  rw [← pairing.weight] at rolled
  have mean : second.progress.tree.root.mean = change first.progress.tree.root.mean := by
    rw [(pairing.abreast level.progress).tree, Tree.root_rescale, Node.rescale]
  simp only [Batch.advance, mean]
  generalize first.progress.rollout rules 0 settings.horizon _ = rolls at rolled ⊢
  generalize second.progress.rollout rules' 0 settings.horizon _ = rolls' at rolled ⊢
  cases rolled with
  | error failures leftovers => exact .error failures leftovers
  | ok both =>
    obtain ⟨rfl, both⟩ := both
    refine .ok ⟨pairing.tell _ _ both, ?_, ?_⟩
    · rw [level.rollouts]
    · rw [level.longest, Rollout.rescale]

/-- Turns at the same time end alike. -/
theorem Level.turn (pairing : Pairing change alike akin rules rules' settings pair)
    (level : Level pair first second) (elapsed : Nat) :
    Coupled alike (fun last last' => Abreast change akin last.progress last'.progress)
      (fun more more' last last' => more' = more ∧ Level pair last last')
      (first.turn rules settings elapsed) (second.turn rules' settings elapsed) := by
  rw [Batch.turn, Batch.turn]
  cases settings.timeLimit.filter (· ≤ elapsed) with
  | some limit =>
    exact .ok ⟨rfl, pairing.tell _ _ level.progress, level.rollouts, level.longest⟩
  | none =>
    have advanced := level.advance pairing
    dsimp only
    generalize first.advance rules settings = advances at advanced ⊢
    generalize second.advance rules' settings = advances' at advanced ⊢
    cases advanced with
    | error failures leftovers => exact .error failures leftovers
    | ok level => exact .ok ⟨rfl, level⟩

/-- Runs by the same clock end alike. -/
theorem Level.run (pairing : Pairing change alike akin rules rules' settings pair)
    (clock : Nat → Nat) (budget : Nat) (level : Level pair first second) :
    Coupled alike (fun last last' => Abreast change akin last.progress last'.progress)
      (fun _ _ => Level pair) (first.run rules settings clock budget)
      (second.run rules' settings clock budget) := by
  induction budget generalizing first second with
  | zero => exact .ok level
  | succ budget ih =>
    have turned := level.turn pairing (clock first.rollouts)
    rw [Batch.run, Batch.run, level.rollouts]
    generalize first.turn rules settings (clock first.rollouts) = turns at turned ⊢
    generalize second.turn rules' settings (clock first.rollouts) = turns' at turned ⊢
    cases turned with
    | error failures leftovers => exact .error failures leftovers
    | @ok _ more _ _ both =>
      obtain ⟨rfl, level⟩ := both
      cases more with
      | false => exact .ok level
      | true => exact ih level

end Batch

/-- Searches that plant the same tree, and whose rollouts go side by side, end
alike: with trees that differ in the unit only, the same tally and the source
at the same place, or with failures that are alike. -/
theorem Planner.Level.search {first : Planner σ υ S α} {second : Planner τ υ S α}
    (level : Level akin first second) (clock : Nat → Nat) (horizon budget : Nat)
    (refl : ∀ failure, alike failure failure)
    (pairing : Pairing change alike akin first.rules second.rules
      { first.settings with horizon := horizon, budget := budget } pair)
    (plants : second.plant { first.settings with horizon := horizon, budget := budget } =
      first.plant { first.settings with horizon := horizon, budget := budget })
    (start : ∀ {tree : Tree S α},
      first.plant { first.settings with horizon := horizon, budget := budget } = .ok tree →
        pair (first.progress tree) (second.progress tree)) :
    Coupled alike (Level akin)
      (fun findings findings' last last' => findings'.tree = findings.tree.rescale change ∧
        findings'.tally = findings.tally ∧ Level akin last last')
      (first.searchWithin clock horizon budget) (second.searchWithin clock horizon budget) := by
  simp only [searchWithin, level.settings, plants]
  cases planted : first.plant { first.settings with horizon := horizon, budget := budget } with
  | error failure => exact .error (refl failure) level
  | ok tree =>
    have level₀ : Batch.Level pair
        (.empty ((first.progress tree).tell (.searchBegun
          { first.settings with horizon := horizon, budget := budget })))
        (.empty ((second.progress tree).tell (.searchBegun
          { first.settings with horizon := horizon, budget := budget }))) :=
      ⟨pairing.tell _ _ (start planted), rfl, rfl⟩
    have ran := level₀.run pairing clock budget
    dsimp only
    generalize (Batch.empty ((first.progress tree).tell (.searchBegun _))).run first.rules _ clock
      budget = runs at ran ⊢
    generalize (Batch.empty ((second.progress tree).tell (.searchBegun _))).run second.rules _
      clock budget = runs' at ran ⊢
    have resumed : ∀ {last : Progress σ υ S α} {last' : Progress τ υ S α},
        Abreast change akin last last' → Level akin (first.resume last) (second.resume last') :=
      fun both => ⟨both.navigator, level.settings, both.source⟩
    cases ran with
    | error failures leftovers => exact .error failures (resumed leftovers)
    | @ok _ _ last last' done =>
      have both := pairing.abreast done.progress
      have tally := Batch.Level.tally ⟨both, done.rollouts, done.longest⟩
      exact .ok ⟨both.tree, tally, resumed (both.tell _ _)⟩

end HorizonUct
