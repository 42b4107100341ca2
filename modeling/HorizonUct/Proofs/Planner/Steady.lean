import HorizonUct.Proofs.Binary64.Exactness
import HorizonUct.Proofs.Doubles
import HorizonUct.Proofs.Planner.Isolation
import HorizonUct.Proofs.Planner.Tallies
import HorizonUct.Proofs.Rollout.Additions
import HorizonUct.Proofs.Rollout.Certainty

/-!
# Searches that earn the same again and again

Over a table that leaves nothing open every rollout of a search earns what a
single rollout earns, and one that breaks off breaks off for all of them. So the
estimate is what comes of folding the same return into a mean once for each
rollout. In doubles this is the return itself as long as no multiple of it has to
be rounded on the way. It need not be where one is: three times a tenth is
rounded, and after the third rollout the mean has moved off.
-/

namespace HorizonUct

namespace Tree

variable {σ S α : Type} [Navigator σ S α] [Scalar α] {tree : Tree S α} {rules : Rules S α}
variable {kind : σ → Prop} {root : S} {horizon start : Nat} {rollout : Rollout α}
variable {rollouts : List (Rollout α)}

/-- A rollout that can be retraced returns at its start what it is worth. -/
theorem Retraces.entriesAt_start (retraces : tree.Retraces rules horizon start rollout)
    (some : 0 < horizon) (once : (rollout.path.map Prod.fst).Nodup) :
    entriesAt start rollout.path = [rollout.total] := by
  obtain ⟨way, rest, route, path, total, -⟩ := retraces
  obtain ⟨earned, later, rfl⟩ := route.starts some
  refine entriesAt_of_mem once ?_
  rw [path, total]
  exact List.mem_cons_self

/-- The mean of the root of an explored tree is what comes of folding in what
the rollouts are worth. -/
theorem Explored.mean_root (explored : tree.Explored kind root rules horizon rollouts)
    (retraced : ∀ rollout ∈ rollouts, tree.Retraces rules horizon 0 rollout)
    (some : 0 < horizon) : tree.root.mean = runningMean (rollouts.map Rollout.total) := by
  obtain ⟨once, learnt⟩ := explored.grown.learnt
  rw [Rollout.made_map_ok] at once learnt
  have returns : returnsAt 0 rollouts = rollouts.map Rollout.total := by
    rw [returnsAt, List.map_eq_flatMap]
    exact List.flatMap_congr fun rollout mem =>
      (retraced rollout mem).entriesAt_start some (once rollout mem)
  have mean := congrArg Prod.snd (learnt 0)
  rwa [learnt_eq (getElem?_root tree), returns] at mean

end Tree

/-- In doubles, probability one makes a distribution, whatever tolerance was accepted. -/
theorem isDistribution_one {scalar : Scalar Float} {ln : Float → Float}
    (doubles : scalar = .binary64 ln) {tolerance : Float}
    (positive : Scalar.le tolerance Scalar.zero = false) :
    isDistribution tolerance [(Scalar.one : Float)] = true := by
  subst doubles
  have distance : Float.abs (-Float.ofNat 0 + Float.ofNat 1 - Float.ofNat 1) = Float.ofNat 0 := by
    decide +kernel
  have least : Float.ofNat 0 ≤ Float.ofNat 1 := by decide +kernel
  have near : ¬ tolerance < Float.ofNat 0 := by
    intro below
    obtain ⟨number, number', less⟩ := Binary64.lt_iff.mp below
    exact of_decide_eq_false positive (Binary64.le_iff.mpr ⟨number, number', less.le⟩)
  show (decide (Float.ofNat 0 ≤ Float.ofNat 1) && true &&
    !decide (tolerance < Float.abs (-Float.ofNat 0 + Float.ofNat 1 - Float.ofNat 1))) = true
  rw [distance, decide_eq_true least, decide_eq_false near]
  rfl

namespace Planner

section Courses

variable {υ α : Type} [Scalar α] [DrawSource υ α] {planner planner' : Planner (Cursor α) υ Nat α}
variable {settings : Settings α} {clock : Nat → Nat} {batch : Batch (Cursor α) υ Nat α}
variable {root horizon budget : Nat} {findings : Findings Nat α} {total : α}

/-- What a search needs for all its rollouts to take one course. -/
structure Assured (planner : Planner (Cursor α) υ Nat α) (root : Nat) : Prop where
  /-- The table leaves nothing open. -/
  certain : planner.navigator.mdp.Certain
  /-- Probability one makes a distribution. -/
  sure : isDistribution planner.settings.tolerance [(Scalar.one : α)] = true
  /-- There is one initial state. -/
  one : planner.navigator.mdp.starts = [root]

/-- At each moment of such a search its rollouts have earned what is earned on the course. -/
theorem Passes.steady (passes : planner.Passes settings clock batch)
    (assured : planner.Assured root) :
    batch.progress.Certain planner.navigator.mdp planner.rules root ∧
      ∃ totals, totals.length = batch.rollouts ∧
        batch.progress.tree.root.mean = runningMean totals ∧
          ∀ total ∈ totals,
            planner.navigator.mdp.Course planner.reward settings.horizon root total := by
  obtain ⟨own, checked, -, root', rollouts, start, explored, accounts⟩ :=
    passes.accounts (Cursor.tracks planner.navigator.mdp) rfl
  rw [Cursor.start_eq, assured.one] at start
  cases start
  have sofar : batch.progress.Certain planner.navigator.mdp planner.rules root :=
    .of_grown explored.grown assured.certain assured.sure own
  refine ⟨sofar, rollouts.map Rollout.total, ?_, ?_, fun total listed => ?_⟩
  · rw [List.length_map, accounts.counted]
  · exact explored.mean_root accounts.retraced (Settings.of_check checked).1
  · obtain ⟨rollout, mem, rfl⟩ := List.mem_map.mp listed
    exact (accounts.retraced rollout mem).course sofar.faithful assured.certain sofar.planted

/-- If the course can be followed, a search with settings that hold comes to its end. -/
theorem Assured.searched (assured : planner.Assured root)
    (valid : ({ planner.settings with horizon := horizon, budget := budget } :
      Settings α).check = .ok ()) (clock : Nat → Nat)
    (course : planner.navigator.mdp.Course planner.reward horizon root total) :
    ∃ findings planner', planner.searchWithin clock horizon budget = (.ok findings, planner') := by
  rcases searched : planner.searchWithin clock horizon budget with ⟨_ | findings, planner'⟩
  · next failure =>
    obtain ⟨moment, bias, passes, broken⟩ :=
      breaks_of_search (plant_one assured.one valid) (congrArg Prod.fst searched)
    obtain ⟨rollout, made⟩ := (passes.steady assured).1.made bias course
    rw [broken] at made
    cases made
  · exact ⟨findings, planner', rfl⟩

/-- If a search comes to its end and a rollout was made, the course can be followed. -/
theorem Assured.exists_course (assured : planner.Assured root)
    (h : planner.searchWithin clock horizon budget = (.ok findings, planner'))
    (some : 0 < findings.tally.rollouts) :
    ∃ total, planner.navigator.mdp.Course planner.reward horizon root total := by
  obtain ⟨moment, journal, passes, rfl, -, -⟩ := ends_of_search h
  obtain ⟨-, totals, counted, -, courses⟩ := passes.steady assured
  have filled : 0 < totals.length := counted ▸ some
  obtain ⟨total, mem⟩ := List.exists_mem_of_length_pos filled
  exact ⟨total, courses total mem⟩

/-- The estimate is what comes of folding in the return of the course for each rollout. -/
theorem Assured.estimate_eq (assured : planner.Assured root)
    (h : planner.searchWithin clock horizon budget = (.ok findings, planner'))
    (course : planner.navigator.mdp.Course planner.reward horizon root total) :
    findings.estimate = runningMean (List.replicate findings.tally.rollouts total) := by
  obtain ⟨moment, journal, passes, rfl, -, -⟩ := ends_of_search h
  obtain ⟨-, totals, counted, mean, courses⟩ := passes.steady assured
  have alike : totals = List.replicate moment.rollouts total :=
    List.eq_replicate_iff.mpr ⟨counted, fun other mem => (courses other mem).unique course⟩
  exact mean.trans (congrArg runningMean alike)

end Courses

section Doubles

variable [scalar : Scalar Float] {υ φ : Type} [DrawSource υ Float] [DrawSource φ Float]

/-- How a search compares to a single rollout where both earn the same. -/
structure Steady (planner : Planner (Cursor Float) υ Nat Float) (clock : Nat → Nat)
    (horizon budget : Nat) (single : Except (Failure Float) (Rollout Float)) : Prop where
  /-- If the rollout is made, the search comes to its end, with all rollouts
  unless the limit on time was used up. Its estimate is what comes of folding in
  the return of the single rollout for each of them. -/
  estimate : ∀ rollout, single = .ok rollout → ∃ findings planner',
    planner.searchWithin clock horizon budget = (.ok findings, planner') ∧
      (findings.tally.rollouts = budget ∨ ∃ limit,
        planner.settings.timeLimit = some limit ∧ limit ≤ clock findings.tally.rollouts) ∧
      findings.estimate = runningMean (List.replicate findings.tally.rollouts rollout.total)
  /-- It is this return if there was a rollout, there were less than `2 ^ 53`, and
  no multiple of the return up to their number has to be rounded. -/
  unrounded : ∀ rollout findings planner' r, single = .ok rollout →
    planner.searchWithin clock horizon budget = (.ok findings, planner') →
      0 < findings.tally.rollouts → findings.tally.rollouts < 2 ^ 53 →
        Binary64.Multiplies rollout.total r findings.tally.rollouts →
          findings.estimate = rollout.total
  /-- If the rollout breaks off, a search does not come to its end with any rollout made. -/
  broken : ∀ failure findings planner', single = .error failure →
    planner.searchWithin clock horizon budget = (.ok findings, planner') →
      findings.tally.rollouts = 0

/-- In doubles, every search over a table that leaves nothing open compares to
every single rollout from the initial state, whatever the draws and the bias. -/
theorem steady_of_certain {ln : Float → Float} (doubles : scalar = .binary64 ln)
    {planner : Planner (Cursor Float) υ Nat Float} {horizon budget root : Nat}
    (certain : planner.navigator.mdp.Certain) (one : planner.navigator.mdp.starts = [root])
    (valid : ({ planner.settings with horizon := horizon, budget := budget } :
      Settings Float).check = .ok ())
    {progress : Progress (Cursor Float) φ Nat Float} (planted : progress.tree = .ofRoot root)
    (table : progress.navigator.mdp = planner.navigator.mdp) (clock : Nat → Nat) (bias : Float) :
    planner.Steady clock horizon budget (progress.rollout planner.rules 0 horizon bias).1 := by
  obtain ⟨far, -, -, positive⟩ := Settings.of_check valid
  have assured : planner.Assured root := ⟨certain, isDistribution_one doubles positive, one⟩
  have bare : progress.tree.Grown
      (fun cursor : Cursor Float => cursor.mdp = planner.navigator.mdp) root [] := by
    rw [planted]
    exact .planted
  have first : progress.Certain planner.navigator.mdp planner.rules root :=
    .of_grown bare certain assured.sure table
  refine ⟨fun rollout made => ?_, ?_, ?_⟩
  · have course := first.course made
    obtain ⟨findings, planner', searched⟩ := assured.searched valid clock course
    have estimate := assured.estimate_eq searched course
    obtain ⟨moment, journal, -, rfl, -, end_⟩ := ends_of_search searched
    exact ⟨_, planner', searched, end_, estimate⟩
  · intro rollout findings planner' r made searched some small multiplies
    have course := first.course made
    obtain ⟨before, total⟩ := course.eq_add_zero far
    have estimate := assured.estimate_eq searched course
    subst doubles
    -- the last summand of the total is nought, so it is not the negative nought
    have plain : rollout.total.toModel.unpack ≠ .zero .negative := by
      have nought : (0 : Float).toModel.unpack = .zero .positive := rfl
      rw [total]
      exact Binary64.unpack_add_ne nought
    exact estimate.trans (multiplies.runningMean_eq ln some small plain)
  · intro failure findings planner' broken searched
    by_contra some
    obtain ⟨total, course⟩ := assured.exists_course searched (Nat.pos_of_ne_zero some)
    obtain ⟨rollout, made⟩ := first.made bias course
    rw [broken] at made
    cases made

end Doubles

end Planner

namespace Tick

open scoped Doubles

/-- One state, which goes on for ever. -/
def table : Mdp Float where
  starts := [0]
  states := #[[⟨"tick", [⟨1, 0⟩]⟩]]

/-- A planner for it, given what each step earns. -/
def planner (earned : Float) : Planner (Cursor Float) (Replay Float) Nat Float :=
  ⟨.ofMdp table, fun _ _ => .ok earned, ⟨#[0.5], 0, Nat.one_pos⟩, Settings.standard, []⟩

/-- A single rollout, with other draws and without a bias. -/
def single (earned : Float) (horizon : Nat) : Except (Failure Float) (Rollout Float) :=
  let progress : Progress (Cursor Float) (Replay Float) Nat Float :=
    ⟨.ofRoot 0, .ofMdp table, ⟨#[0.25], 0, Nat.one_pos⟩, []⟩
  (progress.rollout (planner earned).rules 0 horizon 0).1

/-- Nothing is left open. -/
theorem certain : table.Certain := by
  intro state choices listed
  cases state with
  | zero =>
    cases listed
    exact .inr ⟨"tick", 0, rfl⟩
  | succ state => cases listed

/-- Four steps that earn two and a half each are worth ten, also after seven rollouts. -/
theorem steady_of_seven : ∃ rollout findings planner', single 2.5 4 = .ok rollout ∧
    (planner 2.5).searchWithin (fun _ => 0) 4 7 = (.ok findings, planner') ∧
      findings.tally.rollouts = 7 ∧ rollout.total = 10 ∧ findings.estimate = 10 := by
  have valid : ({ (planner 2.5).settings with horizon := 4, budget := 7 } :
      Settings Float).check = .ok () :=
    Attempt.eq_ok_of_toOption (by decide +kernel)
  have worth : (single 2.5 4).toOption.map Rollout.total = some 10 := by decide +kernel
  obtain ⟨rollout, made, ten⟩ := Option.map_eq_some_iff.mp worth
  have made := Attempt.eq_ok_of_toOption made
  have steady : (planner 2.5).Steady (fun _ => 0) 4 7 (single 2.5 4) :=
    Planner.steady_of_certain rfl certain rfl valid rfl rfl (fun _ => 0) 0
  obtain ⟨findings, planner', searched, full | ⟨limit, limited, -⟩, -⟩ :=
    steady.estimate rollout made
  · have whole : Binary64.Exactly rollout.total
        (Binary64.signed .positive ((5 : ℕ) * (2 : ℝ) ^ (1 : ℤ))) := by
      have counted : Binary64.Exactly (Float.ofNat 10) (10 : ℕ) :=
        Binary64.exactly_ofNat (by decide) (by decide)
      have five : Binary64.signed .positive ((5 : ℕ) * (2 : ℝ) ^ (1 : ℤ)) = (10 : ℕ) := by
        norm_num [Binary64.signed]
      rw [ten, five]
      exact counted
    have multiplies := Binary64.multiplies_of_whole (n := findings.tally.rollouts) whole
      (by decide) (by rw [full]; decide) (by decide) (by decide)
    have same := steady.unrounded rollout findings planner' _ made searched (by omega) (by omega)
      multiplies
    exact ⟨rollout, findings, planner', made, searched, full, ten, same.trans ten⟩
  · cases limited

/-- A step that earns a tenth is worth a tenth, but not after three rollouts: the
settings hold, nothing is left open or infinite, and yet the mean moves off. -/
theorem drifts_of_three : table.Certain ∧
    ({ (planner 0.1).settings with horizon := 1, budget := 3 } : Settings Float).check = .ok () ∧
      ∃ rollout findings planner', single 0.1 1 = .ok rollout ∧ rollout.total = 0.1 ∧
        Scalar.isFinite rollout.total = true ∧
          (planner 0.1).searchWithin (fun _ => 0) 1 3 = (.ok findings, planner') ∧
            findings.tally.rollouts = 3 ∧ findings.estimate ≠ rollout.total := by
  have worth : (single 0.1 1).toOption.map Rollout.total = some 0.1 := by decide +kernel
  have moved : ((planner 0.1).searchWithin (fun _ => 0) 1 3).1.toOption.map (fun findings =>
      (findings.tally.rollouts, decide (findings.estimate = 0.1))) = some (3, false) := by
    decide +kernel
  have finite : Scalar.isFinite (0.1 : Float) = true := by decide +kernel
  obtain ⟨rollout, made, tenth⟩ := Option.map_eq_some_iff.mp worth
  have valid : ({ (planner 0.1).settings with horizon := 1, budget := 3 } :
      Settings Float).check = .ok () :=
    Attempt.eq_ok_of_toOption (by decide +kernel)
  rcases searched : (planner 0.1).searchWithin (fun _ => 0) 1 3 with ⟨_ | findings, planner'⟩
  · rw [searched] at moved
    cases moved
  · rw [searched] at moved
    obtain ⟨full, off⟩ := Prod.mk.inj (Option.some.inj moved)
    refine ⟨certain, valid, rollout, findings, planner', Attempt.eq_ok_of_toOption made, tenth,
      tenth ▸ finite, rfl, full, ?_⟩
    rw [tenth]
    exact of_decide_eq_false off

end Tick

end HorizonUct
