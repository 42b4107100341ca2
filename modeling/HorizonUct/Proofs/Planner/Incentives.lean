import HorizonUct.Proofs.Binary64.Monotone
import HorizonUct.Proofs.Doubles
import HorizonUct.Proofs.Planner.Isolation
import HorizonUct.Proofs.Planner.Turns
import HorizonUct.Proofs.Rollout.Selections

/-!
# Which way the bonus works

The score of an action is its mean return and a bonus, which is the bias times
the root of a logarithm over the visits of the action. Fewer visits make for a
greater root, so of two equally good actions the one that has been tried less
often does not score less, as long as the bias is not negative. This holds of
doubles, which round every step. The root mean is negative when the rewards
are, and then the bonus works the other way.
-/

namespace HorizonUct

namespace Tree

variable {S α : Type} [Scalar α]

/-- The mean return of a node. -/
def meanAt (tree : Tree S α) (id : Nat) : α := (tree.learnt id).2

/-- Of two equally good actions of a state that have been tried, all others
having been tried too, the one that has been tried less often does not score
less than the other one. -/
def Encourages (tree : Tree S α) (visits : Nat) (bias : α) (actions : List Nat) : Prop :=
  (∀ action ∈ actions, 0 < tree.visitsAt action) →
    ∀ fewer ∈ actions, ∀ more ∈ actions, tree.visitsAt fewer < tree.visitsAt more →
      Scalar.le (tree.meanAt fewer) (tree.meanAt more) = true →
        Scalar.le (tree.meanAt more) (tree.meanAt fewer) = true →
          ∃ score score', tree.scoreAt visits bias fewer = .value score ∧
            tree.scoreAt visits bias more = .value score' ∧ Scalar.lt score score' = false

/-- The score of an action that has been tried. -/
theorem scoreAt_of_visited {tree : Tree S α} {id : Nat} (visits : Nat) (bias : α)
    (tried : 0 < tree.visitsAt id) : tree.scoreAt visits bias id =
      .value (bias * Scalar.sqrt (Scalar.ln (Scalar.ofNat visits) /
        Scalar.ofNat (tree.visitsAt id)) + tree.meanAt id) := by
  obtain ⟨node, found⟩ := exists_of_visitsAt tried
  have visited : tree.visitsAt id = node.visits := congrArg Prod.fst (learnt_eq found)
  have mean : tree.meanAt id = node.mean := congrArg Prod.snd (learnt_eq found)
  rw [visited] at tried ⊢
  rw [scoreAt, found, Option.elim_some, Node.score, if_neg tried.ne', mean]

end Tree

/-- A bonus for rarity is not less for fewer visits, whatever the logarithm is. -/
theorem not_rarity_lt (bits : Float) {fewer more : Nat} (pos : 0 < fewer) (h : fewer ≤ more) :
    ¬ (bits / Float.ofNat fewer).sqrt < (bits / Float.ofNat more).sqrt := by
  by_cases negative : bits < 0
  · -- then neither has a positive root
    exact Binary64.not_sqrt_lt_of_not_pos (Binary64.not_div_pos negative (pos.trans_le h))
  · exact Binary64.not_sqrt_lt (Binary64.not_div_lt negative pos h)

/-- In doubles a bias that is not negative encourages what has been tried less. -/
theorem Tree.encourages {S : Type} (ln : Float → Float) (tree : Tree S Float) (visits : Nat)
    {bias : Float} (nonneg : ¬ bias < 0) (actions : List Nat) :
    @Encourages S Float (.binary64 ln) tree visits bias actions := by
  let _ := Scalar.binary64 ln
  intro tried fewer hf more hm less _ good
  have pos := tried fewer hf
  have worse := of_decide_eq_false ((Scalar.ordered_binary64 ln).not_lt good)
  have bonus := Binary64.not_mul_lt nonneg
    (not_rarity_lt (ln (Float.ofNat visits)) pos less.le)
  exact ⟨_, _, scoreAt_of_visited visits bias pos, scoreAt_of_visited visits bias (tried more hm),
    decide_eq_false (Binary64.not_add_lt bonus worse)⟩

namespace Planner

variable {σ υ S α : Type} [Navigator σ S α] [Scalar α] [DrawSource υ α]

/-- A search selects an action in a state: it has a batch behind it, neither its
budget nor its time is used up, and its next rollout has come to that moment. -/
structure Selects (planner : Planner σ υ S α) (settings : Settings α) (clock : Nat → Nat)
    (batch : Batch σ υ S α) (moment : Progress σ υ S α) (state action : Nat) : Prop where
  /-- The batch is one that the search passes. -/
  passes : planner.Passes settings clock batch
  /-- There are rollouts left. -/
  left : batch.rollouts < settings.budget
  /-- There is time left. -/
  inTime : settings.timeLimit.filter (· ≤ clock batch.rollouts) = none
  /-- The next rollout selects the action in the state. -/
  selects : Progress.Selects planner.rules
    (settings.bias.weight batch.progress.tree.root.mean) settings.horizon 0 batch.progress moment
      state action

/-- In doubles, whatever their logarithm, a search that is biased by the root mean
encourages what has been tried less at every selection of a rollout before which
that mean is not negative. -/
theorem encourages_of_search {σ υ S : Type} (ln : Float → Float) [Navigator σ S Float]
    [DrawSource υ Float] {planner : Planner σ υ S Float} {settings : Settings Float}
    {clock : Nat → Nat} {batch : Batch σ υ S Float} {moment : Progress σ υ S Float}
    {state action : Nat} (policy : settings.bias = .rootMean)
    (nonneg : ¬ batch.progress.tree.root.mean < 0)
    (selects : @Selects σ υ S Float _ (.binary64 ln) _ planner settings clock batch moment state
      action) :
    ∃ node, moment.tree.nodes[state]? = some node ∧ action ∈ node.children ∧
      @Tree.Encourages S Float (.binary64 ln) moment.tree node.visits
        (settings.bias.weight batch.progress.tree.root.mean) node.children := by
  let _ := Scalar.binary64 ln
  obtain ⟨node, found, -, picked⟩ := selects.selects.selected
  have nonneg : ¬ settings.bias.weight batch.progress.tree.root.mean < 0 := by
    rw [policy]
    exact nonneg
  exact ⟨node, found, Tree.mem_of_select picked found,
    moment.tree.encourages ln node.visits nonneg node.children⟩

end Planner

namespace Roads

open scoped Doubles

/-- Two roads lead to the same end, one of them by either of two ways. -/
def table : Mdp Float where
  starts := [0]
  states := #[[⟨"a", [⟨1, 3⟩]⟩, ⟨"b", [⟨0.5, 1⟩, ⟨0.5, 2⟩]⟩], [⟨"x", [⟨1, 3⟩]⟩],
    [⟨"y", [⟨1, 3⟩]⟩], []]

/-- What is earned on one road is earned on the other on the average, by one
more on one of its ways and by one less on the other. -/
def reward (earned : Float) (_ : Nat) (label : String) : Except (Failure Float) Float :=
  .ok (if label = "a" then earned else if label = "x" then earned + 1
    else if label = "y" then earned - 1 else 0)

/-- Two actions ahead, four times. -/
def settings : Settings Float := { Settings.standard with horizon := 2, budget := 4 }

/-- A planner for the roads, whose draws lead first one way and then the other. -/
def planner (earned : Float) : Planner (Cursor Float) (Replay Float) Nat Float :=
  ⟨.ofMdp table, reward earned, ⟨#[0.25, 0.25, 0.25, 0.75, 0.25], 0, by decide⟩, settings, []⟩

/-- What comes of its rollouts. -/
def batch (earned : Float) : Nat → Batch (Cursor Float) (Replay Float) Nat Float
  | 0 => .empty (((planner earned).progress (.ofRoot 0)).tell (.searchBegun settings))
  | count + 1 => ((batch earned count).turn (planner earned).rules settings 0).2

/-- Its fourth rollout, when it has counted the visit of the root. -/
def moment (earned : Float) : Progress (Cursor Float) (Replay Float) Nat Float :=
  ((batch earned 3).progress.arrive 0).2.countVisit 0

/-- The settings hold, so the tree is planted. -/
theorem planted (earned : Float) : (planner earned).plant settings = .ok (.ofRoot 0) :=
  Planner.plant_one rfl (Attempt.eq_ok_of_toOption (by decide +kernel))

/-- The search passes all batches that come of rollouts that are made. -/
theorem passes {earned : Float} {count : Nat} (small : count ≤ 4)
    (made : ∀ index < count,
      ((batch earned index).turn (planner earned).rules settings 0).1.toOption = some true) :
    (planner earned).Passes settings (fun _ => 0) (batch earned count) ∧
      (batch earned count).rollouts = count := by
  induction count with
  | zero => exact ⟨.planted (planted earned), rfl⟩
  | succ count ih =>
    obtain ⟨before, rollouts⟩ := ih (by omega) fun index less => made index (by omega)
    have turn : (batch earned count).turn (planner earned).rules settings 0 =
        (.ok true, batch earned (count + 1)) :=
      Prod.ext (Attempt.eq_ok_of_toOption (made count (by omega))) rfl
    refine ⟨before.rolled (by rw [rollouts]; exact small) turn, ?_⟩
    rcases Batch.turn_eq_ok turn with ⟨idle, -⟩ | ⟨-, rollout, progress, event, -, same⟩
    · cases idle
    · rw [same, rollouts]

/-- The fourth rollout selects at the root. -/
theorem selects {earned : Float} {action : Nat}
    (told : ((List.range 3).map fun index =>
        ((batch earned index).turn (planner earned).rules settings 0).1.toOption,
      ((batch earned 3).progress.arrive 0).1.toOption, (moment earned).tree.root.role,
      ((moment earned).tree.select 0 (batch earned 3).progress.tree.root.mean).toOption) =
        ([some true, some true, some true], some (), .decision 0, some (some action))) :
    (planner earned).Selects settings (fun _ => 0) (batch earned 3) (moment earned) 0 action := by
  simp only [Prod.mk.injEq] at told
  obtain ⟨turns, arrived, role, picked⟩ := told
  have made : ∀ index < 3,
      ((batch earned index).turn (planner earned).rules settings 0).1.toOption = some true := by
    intro index less
    have one := List.mem_map_of_mem (f := fun index =>
      ((batch earned index).turn (planner earned).rules settings 0).1.toOption)
        (List.mem_range.mpr less)
    rw [turns] at one
    simpa using one
  obtain ⟨before, rollouts⟩ := passes (by decide) made
  have arrival := (batch earned 3).progress.arrival_arrive 0
  rw [Attempt.eq_ok_of_toOption arrived] at arrival
  have departure : Progress.Departure (planner earned).rules
      (batch earned 3).progress.tree.root.mean (moment earned) 0 (.ok (.pick action))
        (moment earned) :=
    .pick (Tree.getElem?_root _) role (Attempt.eq_ok_of_toOption picked)
  exact ⟨before, by rw [rollouts]; decide, rfl, .here arrival departure⟩

/-- What is encouraged where both roads have paid the same, the first of them on fewer visits. -/
theorem compared {earned bias : Float} {visits : Nat}
    (learnt : [1, 2].map (moment earned).tree.learnt = [(1, earned), (2, earned)])
    (number : Scalar.le earned earned = true)
    (encourages : (moment earned).tree.Encourages visits bias [1, 2]) :
    ∃ score score', (moment earned).tree.scoreAt visits bias 1 = .value score ∧
      (moment earned).tree.scoreAt visits bias 2 = .value score' ∧
        Scalar.lt score score' = false := by
  have first : (moment earned).tree.learnt 1 = (1, earned) := (List.cons.inj learnt).1
  have second : (moment earned).tree.learnt 2 = (2, earned) :=
    (List.cons.inj (List.cons.inj learnt).2).1
  refine encourages ?_ 1 (by decide) 2 (by decide) ?_ ?_ ?_ <;>
    simp [Tree.visitsAt, Tree.meanAt, first, second, number]

/-- Where both roads have cost the same, the fourth rollout passes over the one
that has been tried less, since it scores less. -/
theorem discouraged_fourth : settings.bias = .rootMean ∧
    (planner (-1)).Selects settings (fun _ => 0) (batch (-1) 3) (moment (-1)) 0 2 ∧
      ∃ node, (moment (-1)).tree.nodes[0]? = some node ∧
        ¬ (moment (-1)).tree.Encourages node.visits
          (settings.bias.weight (batch (-1) 3).progress.tree.root.mean) node.children := by
  refine ⟨rfl, selects (by decide +kernel), _, Tree.getElem?_root _, fun encourages => ?_⟩
  have told : ((moment (-1)).tree.root.children, (moment (-1)).tree.root.visits,
      settings.bias.weight (batch (-1) 3).progress.tree.root.mean,
      [1, 2].map (moment (-1)).tree.learnt) = ([1, 2], 4, -1, [(1, -1), (2, -1)]) := by
    decide +kernel
  simp only [Prod.mk.injEq] at told
  obtain ⟨roads, visits, bias, learnt⟩ := told
  rw [roads, visits, bias] at encourages
  obtain ⟨score, score', first, second, above⟩ := compared learnt (by decide +kernel) encourages
  have below : Scalar.lt ((moment (-1)).tree.scoreAt 4 (-1) 1).toFloat
      ((moment (-1)).tree.scoreAt 4 (-1) 2).toFloat = true := by
    decide +kernel
  rw [first, second] at below
  exact Bool.false_ne_true (above.symm.trans below)

/-- Where both roads have paid the same, it goes for the one that has been tried
less, which does not score less. -/
theorem encouraged_fourth :
    (planner 1).Selects settings (fun _ => 0) (batch 1 3) (moment 1) 0 1 ∧
      ∃ score score', (moment 1).tree.scoreAt 4 1 1 = .value score ∧
        (moment 1).tree.scoreAt 4 1 2 = .value score' ∧ Scalar.lt score score' = false := by
  have selected : (planner 1).Selects settings (fun _ => 0) (batch 1 3) (moment 1) 0 1 :=
    selects (by decide +kernel)
  have told : ((moment 1).tree.root.children, (moment 1).tree.root.visits,
      settings.bias.weight (batch 1 3).progress.tree.root.mean,
      [1, 2].map (moment 1).tree.learnt) = ([1, 2], 4, 1, [(1, 1), (2, 1)]) := by
    decide +kernel
  simp only [Prod.mk.injEq] at told
  obtain ⟨roads, visits, bias, learnt⟩ := told
  have nonneg : ¬ settings.bias.weight (batch 1 3).progress.tree.root.mean < 0 := by
    rw [bias]
    decide +kernel
  obtain ⟨node, found, -, encourages⟩ :=
    Planner.encourages_of_search Doubles.ln rfl nonneg selected
  have same := Option.some.inj ((Tree.getElem?_root _).symm.trans found)
  rw [← same, roads, visits, bias] at encourages
  exact ⟨selected, compared learnt (by decide +kernel) encourages⟩

end Roads

end HorizonUct
