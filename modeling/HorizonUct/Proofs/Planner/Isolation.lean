import HorizonUct.Proofs.Fork
import HorizonUct.Proofs.Mdp.Cursor
import HorizonUct.Proofs.Planner.Lockstep

/-!
# Searches do not leak into each other

A planner hands on to its next search no more than the place of its source.
Where the cursor was left makes no difference, since every question to it is
asked after a move. So a search does what as many rollouts one by one do on a
planner that was never used, and may be broken up into them at any point.
-/

namespace HorizonUct

open Attempt (Coupled)
open Progress (Abreast Tuning)

/-- Two cursors of a table. -/
def Cursor.Share {α : Type} (mdp : Mdp α) (first second : Cursor α) : Prop :=
  first.mdp = mdp ∧ second.mdp = mdp

/-- Cursors of one table become the same by any move. -/
theorem Cursor.tuning {α : Type} [Scalar α] (mdp : Mdp α) :
    Tuning (Cursor α) (Cursor α) (Share mdp)
      fun first second => second = first ∧ first.mdp = mdp := by
  refine ⟨?_, ?_, ?_⟩
  · rintro first _ ⟨rfl, same⟩
    exact ⟨same, same⟩
  · rintro first _ ⟨rfl, -⟩ role
    rfl
  · rintro ⟨table, here⟩ ⟨table', here'⟩ state ⟨first, second⟩
    obtain rfl : table = mdp := first
    obtain rfl : table' = table := second
    show Coupled _ _ _ (Cursor.moveTo state ⟨table', here⟩) (Cursor.moveTo state ⟨table', here'⟩)
    rw [Cursor.moveTo, Cursor.moveTo]
    dsimp only
    cases table'.states[state]? with
    | none => exact .error rfl ⟨rfl, rfl⟩
    | some choices => exact .ok ⟨rfl, rfl⟩

/-- A planner that was created holds what it was given, with settings that hold. -/
theorem Planner.create_eq_ok {σ υ S α : Type} [Scalar α] {navigator : σ}
    {reward : S → String → Except (Failure α) α} {source : υ} {settings : Settings α}
    {planner : Planner σ υ S α} (created : create navigator reward source settings = .ok planner) :
    settings.check = .ok () ∧ planner = ⟨navigator, reward, source, settings, []⟩ := by
  rw [create] at created
  cases checked : settings.check with
  | error failure =>
    rw [checked] at created
    cases created
  | ok _ =>
    rw [checked] at created
    exact ⟨rfl, (Except.ok.inj created).symm⟩

/-- Settings that hold do so with any other horizon and budget. -/
theorem Settings.check_within {α : Type} [Scalar α] {settings : Settings α}
    (checked : settings.check = .ok ()) {horizon budget : Nat} (far : 0 < horizon)
    (some : 0 < budget) :
    ({ settings with horizon := horizon, budget := budget } : Settings α).check = .ok () := by
  have own := of_check checked
  rw [check, if_neg (by omega), if_neg (by omega)] at checked
  rw [check, if_neg (by dsimp only; omega), if_neg (by dsimp only; omega)]
  exact checked

namespace Planner

variable {σ τ υ S α : Type} {akin tuned : σ → τ → Prop}
variable {first : Planner σ υ S α} {second : Planner τ υ S α}

/-- Planners that differ in where their navigators stand, and in what has been
entered in their journals. -/
structure Twins (akin : σ → τ → Prop) (first : Planner σ υ S α) (second : Planner τ υ S α) : Prop
    extends Level akin first second where
  /-- The rewards are the same. -/
  reward : second.reward = first.reward

/-- Twins are abreast of each other on any tree. -/
theorem Twins.abreast (twins : Twins akin first second) (tree : Tree S α) :
    Abreast (fun value => value) akin (first.progress tree) (second.progress tree) :=
  ⟨tree.rescale_same.symm, twins.source, twins.navigator⟩

/-- What comes of twins that are abreast are twins. -/
theorem Twins.resume (twins : Twins akin first second) {last : Progress σ υ S α}
    {last' : Progress τ υ S α} (abreast : Abreast (fun value => value) akin last last') :
    Twins akin (first.resume last) (second.resume last') :=
  ⟨⟨abreast.navigator, twins.settings, abreast.source⟩, twins.reward⟩

/-- Twins are twins whatever is entered in a journal. -/
theorem Twins.tell {progress : Progress σ υ S α}
    (twins : Twins akin (first.resume progress) second) (event : Event α) :
    Twins akin (first.resume (progress.tell event)) second :=
  ⟨⟨twins.navigator, twins.settings, twins.source⟩, twins.reward⟩

/-- Twins go by the same rules. -/
theorem Twins.rules (twins : Twins akin first second) : second.rules = first.rules := by
  rw [Planner.rules, Planner.rules, twins.reward, twins.settings]

/-- A search ends as rollouts one by one: with the same tree or the same
failure, and the source at the same place. -/
structure EndsAs (search : Except (Failure α) (Findings S α) × Planner σ υ S α)
    (grown : Except (Failure α) Unit × Tree S α × Planner τ υ S α) : Prop where
  /-- The tree, or the failure. -/
  result : search.1.map Findings.tree = grown.1.map fun _ => grown.2.1
  /-- The source. -/
  source : search.2.source = grown.2.2.source

/-- A search ends as rollouts do if the two end alike on twins. -/
theorem EndsAs.of_coupled {search : Except (Failure α) (Findings S α) × Planner σ υ S α}
    {grown : Except (Failure α) Unit × Tree S α × Planner τ υ S α}
    (coupled : Coupled Eq (fun last last' => Twins akin last last'.2)
      (fun findings _ last last' => last'.1 = findings.tree ∧ Twins akin last last'.2)
      search grown) : EndsAs search grown := by
  cases coupled with
  | error failures leftovers => exact ⟨congrArg Except.error failures, leftovers.source.symm⟩
  | ok both => exact ⟨congrArg Except.ok both.1.symm, both.2.source.symm⟩

variable [Navigator σ S α] [Navigator τ S α] [Scalar α] [DrawSource υ α]

/-- Rollouts of twins from any node of any tree end alike. -/
theorem Twins.rollout (tuning : Tuning σ τ akin tuned) (twins : Twins akin first second)
    (tree : Tree S α) (start horizon : Nat) (bias : α) :
    Coupled Eq (fun last last' => last'.1 = last.1 ∧ Twins akin last.2 last'.2)
      (fun made made' last last' => made' = made ∧ last'.1 = last.1 ∧ Twins akin last.2 last'.2)
      (first.rollout tree start horizon bias) (second.rollout tree start horizon bias) := by
  have rolled := (twins.abreast tree).rollout tuning Rescaling.same
    (congrArg Rules.tolerance twins.rules) (fun state label => by
      rw [twins.rules]
      exact (congrFun Except.map_id _).symm) start horizon bias
  have made_same : ∀ made : Rollout α, made.rescale (fun value => value) = made := by
    intro made
    rw [Rollout.rescale, List.map_id'']
    exact fun _ => rfl
  rw [Planner.rollout, Planner.rollout]
  generalize (first.progress tree).rollout first.rules start horizon bias = rolls at rolled ⊢
  generalize (second.progress tree).rollout second.rules start horizon bias = rolls' at rolled ⊢
  cases rolled with
  | @error _ _ last last' failures both =>
    exact .error failures ⟨both.tree.trans last.tree.rescale_same, twins.resume both⟩
  | @ok made made' last last' both =>
    obtain ⟨rfl, both⟩ := both
    exact .ok ⟨made_same made, both.tree.trans last.tree.rescale_same, twins.resume both⟩

/-- Make so many rollouts from the root of a tree one by one, stopping at the
first that fails. -/
def grow (horizon : Nat) : Nat → Planner σ υ S α → Tree S α →
    Except (Failure α) Unit × Tree S α × Planner σ υ S α
  | 0, planner, tree => (.ok (), tree, planner)
  | count + 1, planner, tree =>
    match planner.rollout tree 0 horizon (planner.settings.bias.weight tree.root.mean) with
    | (.error failure, last) => (.error failure, last)
    | (.ok _, tree, planner) => grow horizon count planner tree

/-- Rollouts one by one may be made in two rows. -/
theorem grow_add (horizon count more : Nat) (planner : Planner σ υ S α) (tree : Tree S α) :
    planner.grow horizon (count + more) tree =
      match planner.grow horizon count tree with
      | (.error failure, last) => (.error failure, last)
      | (.ok (), tree, planner) => planner.grow horizon more tree := by
  induction count generalizing planner tree with
  | zero => rw [Nat.zero_add, grow]
  | succ count ih =>
    rw [Nat.add_right_comm, grow, grow]
    rcases planner.rollout tree 0 horizon (planner.settings.bias.weight tree.root.mean) with
      ⟨_ | made, tree, planner⟩
    · rfl
    · exact ih planner tree

/-- Rollouts of twins one by one end alike. -/
theorem Twins.grow (tuning : Tuning σ τ akin tuned) (horizon count : Nat)
    (twins : Twins akin first second) (tree : Tree S α) :
    Coupled Eq (fun last last' => last'.1 = last.1 ∧ Twins akin last.2 last'.2)
      (fun _ _ last last' => last'.1 = last.1 ∧ Twins akin last.2 last'.2)
      (first.grow horizon count tree) (second.grow horizon count tree) := by
  induction count generalizing first second tree with
  | zero => exact .ok ⟨rfl, twins⟩
  | succ count ih =>
    have rolled := twins.rollout tuning tree 0 horizon
      (first.settings.bias.weight tree.root.mean)
    rw [Planner.grow, Planner.grow, twins.settings]
    generalize first.rollout tree 0 horizon _ = rolls at rolled ⊢
    generalize second.rollout tree 0 horizon _ = rolls' at rolled ⊢
    cases rolled with
    | error failures leftovers => exact .error failures leftovers
    | @ok _ _ last last' both =>
      obtain ⟨tree, planner⟩ := last
      obtain ⟨tree', planner'⟩ := last'
      obtain ⟨-, rfl, both⟩ := both
      exact ih both _

/-- A batch of a planner's search, and the tree and the planner that rollouts one
by one have come to: the same tree, and a twin of the planner as the batch would
leave it. -/
def Accompanies (akin : σ → τ → Prop) (first : Planner σ υ S α) (batch : Batch σ υ S α)
    (last : Tree S α × Planner τ υ S α) : Prop :=
  last.1 = batch.progress.tree ∧ Twins akin (first.resume batch.progress) last.2

/-- One more rollout of a batch ends as one that is made by itself. -/
theorem Accompanies.advance (tuning : Tuning σ τ akin tuned) {settings : Settings α}
    (bias : settings.bias = first.settings.bias) {batch : Batch σ υ S α}
    (twins : Twins akin (first.resume batch.progress) second) :
    Coupled Eq (Accompanies akin first) (fun _ _ => Accompanies akin first)
      (batch.advance first.rules settings)
      (second.rollout batch.progress.tree 0 settings.horizon
        (second.settings.bias.weight batch.progress.tree.root.mean)) := by
  have same : second.settings.bias = settings.bias := by
    rw [twins.settings, bias]
    rfl
  have rolled := twins.rollout tuning batch.progress.tree 0 settings.horizon
    (settings.bias.weight batch.progress.tree.root.mean)
  have own : ∀ weight : α, (first.resume batch.progress).rollout batch.progress.tree 0
      settings.horizon weight =
        ((batch.progress.rollout first.rules 0 settings.horizon weight).1,
          (batch.progress.rollout first.rules 0 settings.horizon weight).2.tree,
            first.resume (batch.progress.rollout first.rules 0 settings.horizon weight).2) :=
    fun _ => rfl
  rw [own] at rolled
  rw [Batch.advance, same]
  generalize batch.progress.rollout first.rules 0 settings.horizon _ = rolls at rolled ⊢
  generalize second.rollout batch.progress.tree 0 settings.horizon _ = rolls' at rolled ⊢
  obtain ⟨failure | made, progress⟩ := rolls
  · cases rolled with
    | error failures leftovers => exact .error failures leftovers
  · cases rolled with
    | ok both => exact .ok ⟨both.2.1, both.2.2.tell _⟩

/-- A run of a batch without a limit on time ends as rollouts one by one do. -/
theorem Accompanies.run (tuning : Tuning σ τ akin tuned) {settings : Settings α}
    (bias : settings.bias = first.settings.bias) (untimed : settings.timeLimit = none)
    (clock : Nat → Nat) (count : Nat) {batch : Batch σ υ S α}
    (twins : Twins akin (first.resume batch.progress) second) :
    Coupled Eq (Accompanies akin first) (fun _ _ => Accompanies akin first)
      (batch.run first.rules settings clock count)
      (second.grow settings.horizon count batch.progress.tree) := by
  induction count generalizing batch second with
  | zero => exact .ok ⟨rfl, twins⟩
  | succ count ih =>
    have advanced := Accompanies.advance tuning bias twins
    rw [Batch.run, Batch.turn, untimed, Option.filter_none, Planner.grow]
    generalize batch.advance first.rules settings = advances at advanced ⊢
    generalize second.rollout batch.progress.tree 0 settings.horizon _ = rolls at advanced ⊢
    cases advanced with
    | error failures leftovers => exact .error failures leftovers
    | @ok _ _ next last both =>
      obtain ⟨tree, planner⟩ := last
      obtain ⟨rfl, both⟩ := both
      exact ih both

/-- A search without a limit on time ends as rollouts one by one do on a twin. -/
theorem Twins.search (tuning : Tuning σ τ akin tuned) (twins : Twins akin first second)
    (untimed : first.settings.timeLimit = none) (clock : Nat → Nat) {horizon budget : Nat}
    {tree : Tree S α}
    (planted : first.plant { first.settings with horizon := horizon, budget := budget } =
      .ok tree) :
    Coupled Eq (fun last last' => Twins akin last last'.2)
      (fun findings _ last last' => last'.1 = findings.tree ∧ Twins akin last last'.2)
      (first.searchWithin clock horizon budget) (second.grow horizon budget tree) := by
  have begun : Twins akin (first.resume (first.progress tree)) second :=
    ⟨⟨twins.navigator, twins.settings, twins.source⟩, twins.reward⟩
  have ran : Coupled Eq (Accompanies akin first) (fun _ _ => Accompanies akin first)
      ((Batch.empty ((first.progress tree).tell (.searchBegun
        { first.settings with horizon := horizon, budget := budget }))).run first.rules
          { first.settings with horizon := horizon, budget := budget } clock budget)
      (second.grow horizon budget tree) := by
    refine Accompanies.run tuning ?_ ?_ clock budget ?_
    · rfl
    · exact untimed
    · exact begun.tell _
  rw [searchWithin, planted]
  dsimp only
  generalize (Batch.empty ((first.progress tree).tell (.searchBegun _))).run first.rules _ clock
    budget = runs at ran ⊢
  generalize second.grow horizon budget _ = grows at ran ⊢
  cases ran with
  | error failures leftovers => exact .error failures leftovers.2
  | ok both => exact .ok ⟨both.1, both.2.tell _⟩

/-- What a planner has become after searches and rollouts in any order, on any
trees, whether they came to their end or not. A search as the settings say is a
search with their horizon and budget. -/
inductive Used (planner : Planner σ υ S α) : Planner σ υ S α → Prop where
  /-- It has not been used. -/
  | fresh : Used planner planner
  /-- One more search. -/
  | searched {last : Planner σ υ S α} (used : Used planner last) (clock : Nat → Nat)
      (horizon budget : Nat) : Used planner (last.searchWithin clock horizon budget).2
  /-- One more rollout. -/
  | rolled {last : Planner σ υ S α} (used : Used planner last) (tree : Tree S α)
      (start horizon : Nat) (bias : α) : Used planner (last.rollout tree start horizon bias).2.2

/-- A search changes neither rewards nor settings. -/
theorem searchWithin_keeps (planner : Planner σ υ S α) (clock : Nat → Nat) (horizon budget : Nat) :
    (planner.searchWithin clock horizon budget).2.reward = planner.reward ∧
      (planner.searchWithin clock horizon budget).2.settings = planner.settings := by
  rw [searchWithin]
  dsimp only
  split
  · exact ⟨rfl, rfl⟩
  · split <;> exact ⟨rfl, rfl⟩

end Planner

namespace Planner

variable {υ α : Type} [Scalar α] {mdp : Mdp α} {planner used last : Planner (Cursor α) υ Nat α}

/-- With settings that hold, a tree is planted in the one initial state. -/
theorem plant_one {root : Nat} (one : last.navigator.mdp.starts = [root]) {settings : Settings α}
    (checked : settings.check = .ok ()) : last.plant settings = .ok (.ofRoot root) := by
  have first : (Navigator.start last.navigator : Except (Failure α) Nat) = .ok root := by
    rw [Cursor.start_eq, one]
    rfl
  have alone : (Navigator.hasOneStart last.navigator : Except (Failure α) Bool) = .ok true := by
    show Except.ok (last.navigator.mdp.starts.length == 1) = _
    rw [one]
    rfl
  rw [plant, checked, alone, first]
  rfl

/-- Unless there is one initial state no tree is planted. -/
theorem plant_many (many : last.navigator.mdp.starts.length ≠ 1) {settings : Settings α}
    (checked : settings.check = .ok ()) : last.plant settings = .error .ambiguousStart := by
  have ambiguous : (Navigator.hasOneStart last.navigator : Except (Failure α) Bool) =
      .ok false := by
    show Except.ok (last.navigator.mdp.starts.length == 1) = _
    rw [beq_eq_false_iff_ne.mpr many]
  rw [plant, checked, ambiguous]
  rfl

variable [DrawSource υ α]

/-- A search leaves a cursor of the same table behind. -/
theorem searchWithin_mdp (own : last.navigator.mdp = mdp) (clock : Nat → Nat)
    (horizon budget : Nat) : (last.searchWithin clock horizon budget).2.navigator.mdp = mdp := by
  have level : Level (Cursor.Share mdp) last last := ⟨⟨own, own⟩, rfl, rfl⟩
  have searched := level.search clock horizon budget (fun _ => rfl)
    ((Cursor.tuning mdp).pairing Rescaling.same rfl
      (fun _ _ => (congrFun Except.map_id _).symm) fun _ => rfl) rfl
    fun {tree} _ => ⟨tree.rescale_same.symm, rfl, own, own⟩
  generalize last.searchWithin clock horizon budget = search at searched ⊢
  cases searched with
  | error _ leftovers => exact leftovers.navigator.1
  | ok both => exact both.2.2.navigator.1

/-- A rollout from any node of any tree leaves a cursor of the same table behind. -/
theorem rollout_mdp (own : last.navigator.mdp = mdp) (tree : Tree Nat α) (start horizon : Nat)
    (bias : α) : (last.rollout tree start horizon bias).2.2.navigator.mdp = mdp := by
  have twins : Twins (Cursor.Share mdp) last last := ⟨⟨⟨own, own⟩, rfl, rfl⟩, rfl⟩
  have rolled := twins.rollout (Cursor.tuning mdp) tree start horizon bias
  generalize last.rollout tree start horizon bias = rolls at rolled ⊢
  cases rolled with
  | error _ leftovers => exact leftovers.2.navigator.1
  | ok both => exact both.2.2.navigator.1

/-- Use changes neither the table nor the rewards nor the settings. -/
theorem Used.keeps (history : planner.Used used) (own : planner.navigator.mdp = mdp) :
    used.navigator.mdp = mdp ∧ used.reward = planner.reward ∧
      used.settings = planner.settings := by
  induction history with
  | fresh => exact ⟨own, rfl, rfl⟩
  | @searched last _ clock horizon budget ih =>
    obtain ⟨table, reward, settings⟩ := ih
    obtain ⟨reward', settings'⟩ := last.searchWithin_keeps clock horizon budget
    exact ⟨searchWithin_mdp table clock horizon budget, reward'.trans reward,
      settings'.trans settings⟩
  | rolled _ tree start horizon bias ih =>
    obtain ⟨table, reward, settings⟩ := ih
    exact ⟨rollout_mdp table tree start horizon bias, reward, settings⟩

/-- A search of so many rollouts and more ends as the former search, carried on
by more rollouts one by one. -/
theorem search_carried_on (own : used.navigator.mdp = mdp)
    (untimed : used.settings.timeLimit = none) (clock clock' : Nat → Nat)
    {horizon budget more : Nat} {tree : Tree Nat α}
    (planted : used.plant { used.settings with horizon := horizon, budget := budget } = .ok tree)
    (planted' : used.plant { used.settings with horizon := horizon, budget := budget + more } =
      .ok tree) :
    match used.searchWithin clock horizon budget with
    | (.error failure, last) =>
      (used.searchWithin clock' horizon (budget + more)).1 = .error failure ∧
        (used.searchWithin clock' horizon (budget + more)).2.source = last.source
    | (.ok findings, last) =>
      EndsAs (used.searchWithin clock' horizon (budget + more))
        (last.grow horizon more findings.tree) := by
  have twins : Twins (Cursor.Share mdp) used used := ⟨⟨⟨own, own⟩, rfl, rfl⟩, rfl⟩
  have short := twins.search (Cursor.tuning mdp) untimed clock planted
  have long := EndsAs.of_coupled (twins.search (Cursor.tuning mdp) untimed clock' planted')
  rw [grow_add] at long
  generalize used.searchWithin clock horizon budget = search at short ⊢
  generalize used.grow horizon budget tree = grown at short long
  cases short with
  | @error first second last last' failures leftovers =>
    obtain rfl : first = second := failures
    refine ⟨?_, long.source.trans leftovers.source⟩
    have result := long.result
    generalize (used.searchWithin clock' horizon (budget + more)).1 = searched at result ⊢
    cases searched with
    | error failure => exact congrArg Except.error (Except.error.inj result)
    | ok findings => cases result
  | @ok findings _ last last' both =>
    obtain ⟨tree', planner'⟩ := last'
    obtain ⟨rfl, both⟩ := both
    have rest := both.grow (Cursor.tuning mdp) horizon more findings.tree
    dsimp only at long ⊢
    generalize planner'.grow horizon more findings.tree = grown' at long rest
    generalize last.grow horizon more findings.tree = grown at rest ⊢
    cases rest with
    | error failures leftovers =>
      cases failures
      refine ⟨long.result, long.source.trans leftovers.2.source⟩
    | ok both =>
      refine ⟨long.result.trans ?_, long.source.trans both.2.source⟩
      exact congrArg Except.ok both.1

/-- What a planner does after it was used, compared to one that was made for it. -/
structure Isolated (used fresh : Planner (Cursor α) υ Nat α) (horizon budget : Nat) : Prop where
  /-- A search ends as the same number of rollouts one by one. -/
  alone : ∀ (clock : Nat → Nat) (root : Nat), used.navigator.mdp.starts = [root] →
    EndsAs (used.searchWithin clock horizon budget) (fresh.grow horizon budget (.ofRoot root))
  /-- It is refused exactly if there is not one initial state. -/
  refused : ∀ clock : Nat → Nat, used.navigator.mdp.starts.length ≠ 1 →
    used.searchWithin clock horizon budget = (.error .ambiguousStart, used)
  /-- A longer search ends as this one, carried on by rollouts one by one. -/
  carried : ∀ (clock clock' : Nat → Nat) (more : Nat), used.navigator.mdp.starts.length = 1 →
    match used.searchWithin clock horizon budget with
    | (.error failure, last) =>
      (used.searchWithin clock' horizon (budget + more)).1 = .error failure ∧
        (used.searchWithin clock' horizon (budget + more)).2.source = last.source
    | (.ok findings, last) =>
      EndsAs (used.searchWithin clock' horizon (budget + more))
        (last.grow horizon more findings.tree)
  /-- Where the cursor stands makes no difference to a rollout. -/
  anywhere : ∀ (here : Option (List (Choice α))) (tree : Tree Nat α) (start depth : Nat) (bias : α),
    let elsewhere := { used with navigator := { used.navigator with here := here } }
    (elsewhere.rollout tree start depth bias).1 = (used.rollout tree start depth bias).1 ∧
      (elsewhere.rollout tree start depth bias).2.1 = (used.rollout tree start depth bias).2.1 ∧
      (elsewhere.rollout tree start depth bias).2.2.source =
        (used.rollout tree start depth bias).2.2.source

variable {cursor cursor' : Cursor α} {reward : Nat → String → Except (Failure α) α} {source : υ}
variable {settings : Settings α}

/-- Whatever a planner was used for before, a search of it without a limit on
time ends as the same number of rollouts one by one on a planner that was made
for the same table, wherever its cursor stands, with the same rewards and
settings and the source at the same place: with the same tree or the same first
failure, and the source at the same place again. The search may be broken off
and carried on by rollouts one by one. And where the cursor stands makes no
difference to any rollout, whichever node of whichever tree it starts from. -/
theorem isolated_after_use (created : create cursor reward source settings = .ok planner)
    (history : planner.Used used) (untimed : settings.timeLimit = none)
    (same : cursor'.mdp = cursor.mdp) {horizon budget : Nat} (far : 0 < horizon)
    (some : 0 < budget) : ∃ fresh, create cursor' reward used.source settings = .ok fresh ∧
      Isolated used fresh horizon budget := by
  obtain ⟨checked, rfl⟩ := create_eq_ok created
  obtain ⟨own, rewards, kept⟩ := history.keeps rfl
  dsimp only at own rewards kept
  have tuning := Cursor.tuning cursor.mdp
  have checkedWithin : ∀ {count : Nat}, 0 < count →
      ({ used.settings with horizon := horizon, budget := count } : Settings α).check = .ok () := by
    intro count some
    rw [kept]
    exact settings.check_within checked far some
  refine ⟨⟨cursor', reward, used.source, settings, []⟩, by rw [create, checked], ?_, ?_, ?_, ?_⟩
  · intro clock root one
    have twins : Twins (Cursor.Share cursor.mdp) used
        (⟨cursor', reward, used.source, settings, []⟩ : Planner (Cursor α) υ Nat α) :=
      ⟨⟨⟨own, same⟩, kept.symm, rfl⟩, rewards.symm⟩
    exact .of_coupled (twins.search tuning (by rw [kept, untimed]) clock
      (plant_one one (checkedWithin some)))
  · intro clock many
    rw [searchWithin, plant_many many (checkedWithin some)]
  · intro clock clock' more one
    obtain ⟨root, one⟩ := List.length_eq_one_iff.mp one
    exact search_carried_on own (by rw [kept, untimed]) clock clock'
      (plant_one one (checkedWithin some)) (plant_one one (checkedWithin (by omega)))
  · intro here tree start depth bias elsewhere
    have twins : Twins (Cursor.Share cursor.mdp) used elsewhere :=
      ⟨⟨⟨own, own⟩, rfl, rfl⟩, rfl⟩
    have rolled := twins.rollout tuning tree start depth bias
    generalize used.rollout tree start depth bias = rolls at rolled ⊢
    generalize elsewhere.rollout tree start depth bias = rolls' at rolled ⊢
    cases rolled with
    | error failures leftovers =>
      exact ⟨congrArg Except.error failures.symm, leftovers.1, leftovers.2.source⟩
    | ok both => exact ⟨congrArg Except.ok both.1, both.2.1, both.2.2.source⟩

end Planner

/-- The settings of the fork hold, so its planner is created. -/
theorem Fork.created : Planner.create (.ofMdp table) reward draws settings = .ok planner := by
  have checked : settings.check.isOk = true := by decide +kernel
  rw [Planner.create]
  cases h : settings.check with
  | error failure =>
    rw [h] at checked
    cases checked
  | ok _ => rfl

/-- The planner of the fork, after it has searched and after a rollout of it has
broken off outside the table. -/
def Fork.weary : Planner (Cursor ℚ) (Replay ℚ) Nat ℚ :=
  ((planner.searchWithin (fun _ => 0) 2 4).2.rollout short.2.tree 4 4 0).2.2

/-- After a search and a rollout that breaks off, a search of the fork ends as
rollouts one by one. -/
theorem Fork.isolated_weary : ∃ fresh,
    Planner.create (.ofMdp table) reward weary.source settings = .ok fresh ∧
      Planner.Isolated weary fresh 2 3 :=
  Planner.isolated_after_use created
    ((Planner.Used.fresh.searched (fun _ => 0) 2 4).rolled short.2.tree 4 4 0) rfl rfl
    (by decide) (by decide)

end HorizonUct
