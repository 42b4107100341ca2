import HorizonUct.Planner
import HorizonUct.Proofs.Rollout.Route

/-!
# What a search has explored

A search that comes to its end has made every rollout it tried, each from the
root and with the same horizon and rules. So its tree is what rollouts have
grown, every path on record can be retraced in it, and whatever is expanded
lies on one of them. The same holds at each moment between two rollouts.
-/

namespace HorizonUct

variable {σ υ S α : Type} [Navigator σ S α] [Scalar α]

/-- A tree that was grown by rollouts from the root, all of which were made
with the same horizon and the same rules. -/
structure Tree.Explored (kind : σ → Prop) (root : S) (rules : Rules S α) (horizon : Nat)
    (rollouts : List (Rollout α)) (tree : Tree S α) : Prop where
  /-- The tree was grown by these rollouts. -/
  grown : tree.Grown kind root (rollouts.map .ok)
  /-- Each of them has taken a route through the tree, along which its path has the returns. -/
  routed : ∀ rollout ∈ rollouts, ∃ way rest, tree.Route rules horizon 0 way rest ∧
    rollout.path = returnsOf way
  /-- Every expanded node is on the path of one of them. -/
  opened : ∀ {id : Nat} {node : Node S α}, tree.nodes[id]? = some node → node.expanded = true →
    ∃ rollout ∈ rollouts, id ∈ rollout.path.map Prod.fst

namespace Tree

variable {kind : σ → Prop} {root : S} {rules : Rules S α} {horizon : Nat}
variable {rollouts : List (Rollout α)}

/-- A root alone has not been explored. -/
theorem explored_ofRoot : (ofRoot root : Tree S α).Explored kind root rules horizon [] := by
  refine ⟨.planted, nofun, fun {id node} found expanded => ?_⟩
  rw [(getElem?_ofRoot found).2] at expanded
  cases expanded

/-- One more rollout that is made explores further. -/
theorem Explored.rolled {υ : Type} [DrawSource υ α] {progress last : Progress σ υ S α} {bias : α}
    {rollout : Rollout α} (explored : progress.tree.Explored kind root rules horizon rollouts)
    (admitted : kind progress.navigator)
    (h : progress.rollout rules 0 horizon bias = (.ok rollout, last)) :
    last.tree.Explored kind root rules horizon (rollouts ++ [rollout]) := by
  have grown := explored.grown.rolled progress rules 0 horizon bias admitted
  have rolls := progress.rolls_rollout rules 0 horizon bias
  rw [h] at grown rolls
  have layered := explored.grown.layered
  have extends_ := rolls.changes.extends
  refine ⟨?_, ?_, ?_⟩
  · rw [List.map_append]
    exact grown
  · intro other ho
    rcases List.mem_append.mp ho with ho | ho
    · obtain ⟨way, rest, route, path⟩ := explored.routed other ho
      exact ⟨way, rest, route.extends extends_, path⟩
    · rw [List.mem_singleton.mp ho]
      exact rolls.route layered
  · intro id node found expanded
    rcases rolls.widens found expanded with passed | ⟨before, hb, expanded⟩
    · exact ⟨rollout, List.mem_append_right _ (List.mem_singleton_self _), passed⟩
    · obtain ⟨other, ho, passed⟩ := explored.opened hb expanded
      exact ⟨other, List.mem_append_left _ ho, passed⟩

end Tree

namespace Batch

variable {υ : Type} [DrawSource υ α] {rules : Rules S α} {settings : Settings α}
variable {batch last : Batch σ υ S α}

/-- What comes of a turn that does not fail: nothing but an event, when the
time is used up, or one more rollout. -/
theorem turn_eq_ok {elapsed : Nat} {more : Bool}
    (h : batch.turn rules settings elapsed = (.ok more, last)) :
    (more = false ∧ ∃ event, last = { batch with progress := batch.progress.tell event }) ∨
      (more = true ∧ ∃ rollout progress event,
        batch.progress.rollout rules 0 settings.horizon
          (settings.bias.weight batch.progress.tree.root.mean) = (.ok rollout, progress) ∧
        last = ⟨progress.tell event, batch.rollouts + 1, max batch.longest rollout.steps⟩) := by
  unfold turn at h
  split at h
  · cases h
    exact .inl ⟨rfl, _, rfl⟩
  · unfold advance at h
    dsimp only at h
    cases hr : batch.progress.rollout rules 0 settings.horizon
        (settings.bias.weight batch.progress.tree.root.mean) with
    | mk result progress =>
      rw [hr] at h
      cases result with
      | error failure => cases h
      | ok rollout =>
        cases h
        exact .inr ⟨rfl, rollout, progress, _, rfl, rfl⟩

/-- A turn makes no rollout only when the time is used up. -/
theorem limit_of_turn {elapsed : Nat}
    (h : batch.turn rules settings elapsed = (.ok false, last)) :
    ∃ limit, settings.timeLimit = some limit ∧ limit ≤ elapsed := by
  unfold turn at h
  split at h
  · next limit used =>
    obtain ⟨set, late⟩ := Option.filter_eq_some_iff.mp used
    exact ⟨limit, set, of_decide_eq_true late⟩
  · split at h <;> cases h

/-- A turn that fails does so in its rollout. -/
theorem turn_eq_error {elapsed : Nat} {failure : Failure α}
    (h : batch.turn rules settings elapsed = (.error failure, last)) :
    (batch.progress.rollout rules 0 settings.horizon
      (settings.bias.weight batch.progress.tree.root.mean)).1 = .error failure := by
  unfold turn at h
  split at h
  · cases h
  · unfold advance at h
    dsimp only at h
    cases hr : batch.progress.rollout rules 0 settings.horizon
        (settings.bias.weight batch.progress.tree.root.mean) with
    | mk result progress =>
      rw [hr] at h
      cases result with
      | error failure' =>
        cases h
        rfl
      | ok rollout => cases h

end Batch

namespace Planner

variable {υ : Type} {kind : σ → Prop} {at_ : σ → S → Prop}
variable {planner planner' : Planner σ υ S α} {settings : Settings α}

/-- A tree is planted if the settings hold and there is one initial state, and
then it is the tree of that state. -/
theorem plant_eq_ok {tree : Tree S α} (h : planner.plant settings = .ok tree) :
    settings.check = .ok () ∧ ∃ root, Navigator.start planner.navigator = .ok root ∧
      tree = .ofRoot root := by
  obtain ⟨_, checked, h⟩ := Attempt.bind_eq_ok_iff.mp h
  obtain ⟨one, -, h⟩ := Attempt.bind_eq_ok_iff.mp h
  cases one with
  | false => cases h
  | true =>
    obtain ⟨root, start, h⟩ := Attempt.bind_eq_ok_iff.mp h
    exact ⟨checked, root, start, (Except.ok.inj h).symm⟩

variable [DrawSource υ α]

/-- A batch that a search with the given settings has behind it at some moment
before, between or after its rollouts. -/
inductive Passes (planner : Planner σ υ S α) (settings : Settings α) (clock : Nat → Nat) :
    Batch σ υ S α → Prop where
  /-- The tree has just been planted. -/
  | planted {tree : Tree S α} (h : planner.plant settings = .ok tree) :
      Passes planner settings clock
        (.empty ((planner.progress tree).tell (.searchBegun settings)))
  /-- One more rollout has been made. -/
  | rolled {batch next : Batch σ υ S α} (before : Passes planner settings clock batch)
      (left : batch.rollouts < settings.budget)
      (turn : batch.turn planner.rules settings (clock batch.rollouts) = (.ok true, next)) :
      Passes planner settings clock next

variable {clock : Nat → Nat} {batch last : Batch σ υ S α}

/-- At each moment of a search the tree has been explored from the initial state. -/
theorem Passes.explored (tracks : Tracks kind at_) (kept : kind planner.navigator)
    (passes : planner.Passes settings clock batch) : kind batch.progress.navigator ∧
      settings.check = .ok () ∧ ∃ root rollouts, Navigator.start planner.navigator = .ok root ∧
        batch.progress.tree.Explored kind root planner.rules settings.horizon rollouts := by
  induction passes with
  | planted h =>
    obtain ⟨checked, root, start, rfl⟩ := plant_eq_ok h
    exact ⟨kept, checked, root, [], start, Tree.explored_ofRoot⟩
  | @rolled batch _ _ _ turn ih =>
    obtain ⟨admitted, checked, root, rollouts, start, explored⟩ := ih
    rcases Batch.turn_eq_ok turn with ⟨idle, -⟩ | ⟨-, rollout, progress, event, made, rfl⟩
    · cases idle
    · have rolls := batch.progress.rolls_rollout planner.rules 0 settings.horizon
        (settings.bias.weight batch.progress.tree.root.mean)
      rw [made] at rolls
      have admittedNext := (rolls.steps tracks explored.grown.layered admitted).2
      have onward := explored.rolled admitted made
      exact ⟨admittedNext, checked, root, rollouts ++ [rollout], start, onward⟩

/-- A run comes to its end at a moment of the search, but for the journal: when
all its rollouts have been made, or once the time is used up. -/
theorem Passes.ends {budget : Nat} (passes : planner.Passes settings clock batch)
    (left : batch.rollouts + budget ≤ settings.budget)
    (h : batch.run planner.rules settings clock budget = (.ok (), last)) : ∃ moment journal,
      planner.Passes settings clock moment ∧
        last = { moment with progress := { moment.progress with journal := journal } } ∧
        (moment.rollouts = batch.rollouts + budget ∨
          ∃ limit, settings.timeLimit = some limit ∧ limit ≤ clock moment.rollouts) := by
  induction budget generalizing batch with
  | zero =>
    cases h
    exact ⟨last, _, passes, rfl, .inl rfl⟩
  | succ budget ih =>
    unfold Batch.run at h
    cases ht : batch.turn planner.rules settings (clock batch.rollouts) with
    | mk result next =>
      rw [ht] at h
      cases result with
      | error failure => cases h
      | ok more =>
        rcases Batch.turn_eq_ok ht with ⟨rfl, event, rfl⟩ | ⟨rfl, rollout, progress, event, -, rfl⟩
        · cases h
          exact ⟨batch, _, passes, rfl, .inr (Batch.limit_of_turn ht)⟩
        · obtain ⟨moment, journal, onward, same, end_⟩ :=
            ih (passes.rolled (by omega) ht) (by dsimp only; omega) h
          refine ⟨moment, journal, onward, same, end_.imp_left fun full => ?_⟩
          rw [full]
          dsimp only
          omega

/-- A run that breaks off does so in a rollout from the root at some moment. -/
theorem Passes.breaks {budget : Nat} {failure : Failure α}
    (passes : planner.Passes settings clock batch)
    (left : batch.rollouts + budget ≤ settings.budget)
    (h : batch.run planner.rules settings clock budget = (.error failure, last)) :
    ∃ moment bias, planner.Passes settings clock moment ∧
      (moment.progress.rollout planner.rules 0 settings.horizon bias).1 = .error failure := by
  induction budget generalizing batch with
  | zero => cases h
  | succ budget ih =>
    unfold Batch.run at h
    cases ht : batch.turn planner.rules settings (clock batch.rollouts) with
    | mk result next =>
      rw [ht] at h
      cases result with
      | error failure' =>
        cases h
        exact ⟨batch, _, passes, Batch.turn_eq_error ht⟩
      | ok more =>
        rcases Batch.turn_eq_ok ht with ⟨rfl, event, rfl⟩ | ⟨rfl, rollout, progress, event, -, rfl⟩
        · cases h
        · refine ih (passes.rolled (by omega) ht) ?_ h
          dsimp only
          omega

/-- A search for which a tree is planted fails only in a rollout from the root
at some moment. -/
theorem breaks_of_search {horizon budget : Nat} {tree : Tree S α} {failure : Failure α}
    (planted : planner.plant { planner.settings with horizon := horizon, budget := budget } =
      .ok tree)
    (h : (planner.searchWithin clock horizon budget).1 = .error failure) : ∃ moment bias,
      planner.Passes { planner.settings with horizon := horizon, budget := budget } clock moment ∧
        (moment.progress.rollout planner.rules 0 horizon bias).1 = .error failure := by
  rw [searchWithin, planted] at h
  dsimp only at h
  split at h
  · next failure' last ran =>
    cases h
    exact (Passes.planted planted).breaks (Nat.zero_add budget).le ran
  · cases h

/-- A search that comes to its end returns what it has come to at a moment:
when all rollouts have been made, or once the time is used up. -/
theorem ends_of_search {horizon budget : Nat} {findings : Findings S α}
    (h : planner.searchWithin clock horizon budget = (.ok findings, planner')) : ∃ moment journal,
      planner.Passes { planner.settings with horizon := horizon, budget := budget } clock moment ∧
        findings = ⟨moment.progress.tree, moment.tally⟩ ∧
        planner' = planner.resume { moment.progress with journal := journal } ∧
        (moment.rollouts = budget ∨
          ∃ limit, planner.settings.timeLimit = some limit ∧ limit ≤ clock moment.rollouts) := by
  unfold searchWithin at h
  dsimp only at h
  split at h
  · cases h
  · next tree planted =>
    split at h
    · cases h
    · next last ran =>
      obtain ⟨moment, journal, passes, rfl, end_⟩ :=
        (Passes.planted planted).ends (Nat.zero_add budget).le ran
      cases h
      exact ⟨moment, _, passes, rfl, rfl, end_.imp_left fun full => full.trans (Nat.zero_add _)⟩

/-- The tree that a search returns is that of a moment, and the planner goes
by the same rewards and settings. -/
theorem passes_of_search {horizon budget : Nat} {findings : Findings S α}
    (h : planner.searchWithin clock horizon budget = (.ok findings, planner')) :
    (planner'.reward = planner.reward ∧ planner'.settings = planner.settings) ∧ ∃ moment,
      planner.Passes { planner.settings with horizon := horizon, budget := budget } clock moment ∧
        moment.progress.tree = findings.tree := by
  obtain ⟨moment, journal, passes, rfl, rfl, -⟩ := ends_of_search h
  exact ⟨⟨rfl, rfl⟩, moment, passes, rfl⟩

/-- A search that comes to its end returns a tree that was explored from the
initial state, and a planner that goes by the same rewards and settings. -/
theorem explored_of_search (tracks : Tracks kind at_) (kept : kind planner.navigator)
    {horizon budget : Nat} {findings : Findings S α}
    (h : planner.searchWithin clock horizon budget = (.ok findings, planner')) :
    0 < horizon ∧ (planner'.reward = planner.reward ∧ planner'.settings = planner.settings) ∧
      ∃ root rollouts, Navigator.start planner.navigator = .ok root ∧
        findings.tree.Explored kind root planner.rules horizon rollouts := by
  obtain ⟨handed, moment, passes, tree⟩ := passes_of_search h
  obtain ⟨-, checked, root, rollouts, start, explored⟩ := passes.explored tracks kept
  rw [tree] at explored
  exact ⟨(Settings.of_check checked).1, handed, root, rollouts, start, explored⟩

end Planner

end HorizonUct
