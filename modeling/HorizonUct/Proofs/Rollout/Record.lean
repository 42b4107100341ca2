import HorizonUct.Proofs.Fork
import HorizonUct.Proofs.Tree.Statistics

/-!
# Statistics are the record of the rollouts that were made

No node is met twice on the way of a rollout. So each rollout that is made
counts one visit at each node of its path and folds one return into its mean,
and a rollout that breaks off takes back exactly what it counted. Read off the
finished tree, the visits of a node are the rollouts that passed it, and its
mean is that of the returns it was told, in order.
-/

namespace HorizonUct

namespace Progress

variable {σ υ S α : Type} [Navigator σ S α] [Scalar α]
variable {progress here there last : Progress σ υ S α} {id : Nat}

/-- Arriving changes no statistics. -/
theorem Arrival.learnt {result : Except (Failure α) Unit}
    (arrival : Arrival progress id result here) (other : Nat) :
    here.tree.learnt other = progress.tree.learnt other := by
  cases arrival with
  | lost | barred | silent | known => rfl
  | opened found stands bare asked =>
    exact Tree.learnt_adopt (Tree.lt_size found) fun child hc =>
      (Role.offspring_eq_ok asked child hc).1

variable [DrawSource υ α] {rules : Rules S α} {bias : α}

/-- Coming to a node and leaving it counts one visit there. -/
theorem Departure.learnt {result : Except (Failure α) (Move α)}
    (arrival : Arrival progress id (.ok ()) here)
    (departure : Departure rules bias (here.countVisit id) id result there) (other : Nat) :
    there.tree.learnt other =
      ((progress.tree.learnt other).1 + [id].count other, (progress.tree.learnt other).2) := by
  obtain ⟨node, found, -⟩ := arrival.expanded
  rw [departure.same.1, countVisit, ← arrival.learnt]
  by_cases he : id = other
  · rw [← he, Tree.learnt_countVisit (Tree.lt_size found), List.count_singleton_self]
  · rw [Tree.learnt_modify_of_ne he, List.count_singleton, if_neg (by simpa using he), Nat.add_zero]

variable {left : Nat} {way : List (Nat × α)} {result : Except (Failure α) Nat}

/-- A way leads to ever later nodes, from its start on. -/
theorem Descends.ascending (descent : Descends rules bias left id progress way last result)
    (linked : progress.tree.Linked) :
    (way.map Prod.fst).Pairwise (· < ·) ∧ ∀ other ∈ way.map Prod.fst, id ≤ other := by
  have single : ∀ id : Nat, [id].Pairwise (· < ·) ∧ ∀ other ∈ [id], id ≤ other :=
    fun id => ⟨List.pairwise_singleton _ _, fun other h => (List.mem_singleton.mp h).ge⟩
  induction descent with
  | horizon | endless | refused => exact ⟨.nil, nofun⟩
  | broken | stop => exact single _
  | pick arrival departure rest ih | act arrival departure rest ih =>
    have later := departure.later linked arrival rfl
    obtain ⟨sorted, above⟩ := ih ((departure.changes arrival).linked linked)
    rw [List.map_cons]
    refine ⟨List.pairwise_cons.mpr ⟨fun other h => ?_, sorted⟩, fun other h => ?_⟩
    · exact Nat.lt_of_lt_of_le later (above other h)
    · rcases List.mem_cons.mp h with rfl | h
      · exact Nat.le_refl _
      · exact Nat.le_of_lt (Nat.lt_of_lt_of_le later (above other h))

/-- No node is twice on a way. -/
theorem Descends.nodup (descent : Descends rules bias left id progress way last result)
    (linked : progress.tree.Linked) : (way.map Prod.fst).Nodup :=
  (descent.ascending linked).1.imp Nat.ne_of_lt

/-- A descent counts one visit at each node of its way and changes no mean. -/
theorem Descends.learnt (descent : Descends rules bias left id progress way last result)
    (other : Nat) :
    last.tree.learnt other = ((progress.tree.learnt other).1 + (way.map Prod.fst).count other,
      (progress.tree.learnt other).2) := by
  induction descent with
  | horizon | endless => rfl
  | refused arrival => exact arrival.learnt other
  | broken arrival departure | stop arrival departure =>
    have counted := departure.learnt arrival other
    exact counted
  | pick arrival departure rest ih | act arrival departure rest ih =>
    rw [ih, departure.learnt arrival, List.map_cons, List.count_cons, List.count_cons,
      List.count_nil]
    simp only [Prod.mk.injEq, and_true]
    omega

/-- A rollout that breaks off leaves all statistics as they were. -/
theorem Rolls.learnt_of_error {start horizon : Nat} {failure : Failure α}
    (rolls : Rolls rules progress start horizon bias (.error failure) last) (other : Nat) :
    last.tree.learnt other = progress.tree.learnt other := by
  cases rolls with
  | refused some approach => rw [approach.same]
  | broken some approach descent =>
    rw [← approach.same, Tree.learnt_dropVisits, descent.learnt,
      List.map_reverse, List.count_reverse, Nat.add_sub_cancel]

/-- A rollout that is made counts a visit at each node of its path, each of
them once, and lets it learn the return that it is paired with. -/
theorem Rolls.learnt_of_ok {start horizon : Nat} {rollout : Rollout α}
    (rolls : Rolls rules progress start horizon bias (.ok rollout) last)
    (linked : progress.tree.Linked) :
    (rollout.path.map Prod.fst).Nodup ∧ ∀ other, last.tree.learnt other =
      ((progress.tree.learnt other).1 + (rollout.path.map Prod.fst).count other,
        (entriesAt other rollout.path).foldl
          (foldMean ((progress.tree.learnt other).1 + (rollout.path.map Prod.fst).count other))
          (progress.tree.learnt other).2) := by
  cases rolls with
  | idle nought => exact ⟨.nil, fun _ => rfl⟩
  | @made _ last way _ some approach descent =>
    rw [← approach.same] at linked ⊢
    have distinct := descent.nodup linked
    have present : ∀ other ∈ way.map Prod.fst, other < last.tree.size := by
      intro other h
      obtain ⟨node, found, -⟩ := descent.opened other h
      exact Tree.lt_size found
    rw [Tree.path_backUp]
    refine ⟨distinct, fun other => ?_⟩
    rw [Tree.learnt_backUp distinct present, descent.learnt]

/-- The nodes on the path of a rollout that is made are expanded. -/
theorem Rolls.passed {start horizon : Nat} {rollout : Rollout α}
    (rolls : Rolls rules progress start horizon bias (.ok rollout) last) :
    ∀ id ∈ rollout.path.map Prod.fst,
      ∃ node, last.tree.nodes[id]? = some node ∧ node.expanded = true := by
  cases rolls with
  | idle nought => nofun
  | @made _ last way _ some approach descent =>
    rw [Tree.path_backUp]
    intro id h
    obtain ⟨node, found, expanded⟩ := descent.opened id h
    have learns := steps_backUp (Tree.Told fun (_ : σ) _ => True) last.tree way.reverse
    obtain ⟨after, ha, kept⟩ := learns.extends found
    exact ⟨after, ha, kept.expanded expanded⟩

end Progress

/-- The returns that a node is paired with in the paths of rollouts, in order. -/
def returnsAt {α : Type} (id : Nat) (rollouts : List (Rollout α)) : List α :=
  rollouts.flatMap fun rollout => entriesAt id rollout.path

/-- One more rollout adds its returns at the end. -/
theorem returnsAt_concat {α : Type} (id : Nat) (rollouts : List (Rollout α))
    (rollout : Rollout α) :
    returnsAt id (rollouts ++ [rollout]) = returnsAt id rollouts ++ entriesAt id rollout.path := by
  rw [returnsAt, List.flatMap_append, List.flatMap_singleton]
  rfl

/-- If no rollout passes a node twice, it is paired with one return by each that passes. -/
theorem length_returnsAt {α : Type} (id : Nat) {rollouts : List (Rollout α)}
    (once : ∀ rollout ∈ rollouts, (rollout.path.map Prod.fst).Nodup) :
    (returnsAt id rollouts).length =
      rollouts.countP fun rollout => id ∈ rollout.path.map Prod.fst := by
  induction rollouts with
  | nil => rfl
  | cons rollout rest ih =>
    have here := once rollout List.mem_cons_self
    rw [returnsAt, List.flatMap_cons, List.length_append, ← returnsAt, length_entriesAt,
      ih fun other h => once other (List.mem_cons_of_mem _ h), List.countP_cons, Nat.add_comm,
      here.count]
    simp only [decide_eq_true_eq]

namespace Tree

variable {σ S α : Type} [Scalar α]

/-- The statistics of a tree are those of given rollouts. -/
structure Records (tree : Tree S α) (rollouts : List (Rollout α)) : Prop where
  /-- No rollout passes a node twice. -/
  once : ∀ rollout ∈ rollouts, (rollout.path.map Prod.fst).Nodup
  /-- The visits of a node are the rollouts that passed it. -/
  visits : ∀ {id : Nat} {node : Node S α}, tree.nodes[id]? = some node →
    node.visits = rollouts.countP fun rollout => id ∈ rollout.path.map Prod.fst
  /-- The mean of a node is that of the returns it is paired with, in order. -/
  mean : ∀ {id : Nat} {node : Node S α}, tree.nodes[id]? = some node →
    node.mean = runningMean (returnsAt id rollouts)
  /-- A node that no rollout passed has kept its first mean. -/
  untouched : ∀ {id : Nat} {node : Node S α}, tree.nodes[id]? = some node →
    (∀ rollout ∈ rollouts, id ∉ rollout.path.map Prod.fst) → node.mean = Scalar.zero

/-- It is enough to compare what was learnt with the returns of each node. -/
theorem Records.of_learnt {tree : Tree S α} {rollouts : List (Rollout α)}
    (once : ∀ rollout ∈ rollouts, (rollout.path.map Prod.fst).Nodup)
    (learnt : ∀ id, tree.learnt id =
      ((returnsAt id rollouts).length, runningMean (returnsAt id rollouts))) :
    tree.Records rollouts := by
  have visits : ∀ {id : Nat} {node : Node S α}, tree.nodes[id]? = some node →
      node.visits = (returnsAt id rollouts).length := by
    intro id node found
    have h := learnt id
    rw [learnt_eq found] at h
    exact (Prod.mk.inj h).1
  have mean : ∀ {id : Nat} {node : Node S α}, tree.nodes[id]? = some node →
      node.mean = runningMean (returnsAt id rollouts) := by
    intro id node found
    have h := learnt id
    rw [learnt_eq found] at h
    exact (Prod.mk.inj h).2
  refine ⟨once, fun found => ?_, mean, fun {id} _ found missed => ?_⟩
  · rw [visits found, length_returnsAt _ once]
  · have none : returnsAt id rollouts = [] := by
      rw [← List.length_eq_zero_iff, length_returnsAt id once, List.countP_eq_zero]
      intro rollout h
      rw [decide_eq_true_eq]
      exact missed rollout h
    rw [mean found, none]
    rfl

variable [Navigator σ S α] {kind : σ → Prop} {root : S} {tree : Tree S α}
variable {outcomes : List (Except (Failure α) (Rollout α))}

/-- What a tree has learnt after a row of rollouts. -/
theorem Grown.learnt (grown : Grown kind root outcomes tree) :
    (∀ rollout ∈ Rollout.made outcomes, (rollout.path.map Prod.fst).Nodup) ∧
      ∀ id, tree.learnt id = ((returnsAt id (Rollout.made outcomes)).length,
        runningMean (returnsAt id (Rollout.made outcomes))) := by
  induction grown with
  | planted => exact ⟨nofun, fun id => learnt_ofRoot root⟩
  | @rolled υ _ outcomes progress rules start horizon bias grown _ ih =>
    have rolls := progress.rolls_rollout rules start horizon bias
    generalize (progress.rollout rules start horizon bias).2 = last at rolls ⊢
    cases hr : (progress.rollout rules start horizon bias).1 with
    | error failure =>
      rw [hr] at rolls
      rw [Rollout.made_append_error]
      exact ⟨ih.1, fun id => (rolls.learnt_of_error id).trans (ih.2 id)⟩
    | ok rollout =>
      rw [hr] at rolls
      obtain ⟨distinct, learnt⟩ := rolls.learnt_of_ok grown.layered.toLinked
      rw [Rollout.made_append_ok]
      refine ⟨fun other h => ?_, fun id => ?_⟩
      · rcases List.mem_append.mp h with h | h
        · exact ih.1 other h
        · rw [List.mem_singleton.mp h]
          exact distinct
      · have single : (entriesAt id rollout.path).length ≤ 1 := by
          rw [length_entriesAt]
          exact List.nodup_iff_count.mp distinct id
        rw [learnt id, ih.2 id, returnsAt_concat, List.length_append, ← length_entriesAt,
          runningMean_append single]

/-- Each rollout that was made has passed expanded nodes only. -/
theorem Grown.passed (grown : Grown kind root outcomes tree) :
    ∀ rollout ∈ Rollout.made outcomes, ∀ id ∈ rollout.path.map Prod.fst,
      ∃ node, tree.nodes[id]? = some node ∧ node.expanded = true := by
  induction grown with
  | planted => nofun
  | @rolled υ _ outcomes progress rules start horizon bias grown _ ih =>
    have rolls := progress.rolls_rollout rules start horizon bias
    have extends_ := rolls.changes.extends
    generalize (progress.rollout rules start horizon bias).2 = last at rolls extends_ ⊢
    intro rollout hr id hid
    rw [Rollout.made, List.filterMap_append, List.mem_append] at hr
    rcases hr with hr | hr
    · obtain ⟨node, found, expanded⟩ := ih rollout hr id hid
      obtain ⟨after, ha, kept⟩ := extends_ found
      exact ⟨after, ha, kept.expanded expanded⟩
    · obtain ⟨outcome, ho, hr⟩ := List.mem_filterMap.mp hr
      rw [List.mem_singleton] at ho
      cases outcome with
      | error failure => cases hr
      | ok made =>
        cases hr
        rw [← ho] at rolls
        exact rolls.passed id hid

/-- A node that is not expanded has never been visited. -/
theorem Grown.unvisited (grown : Grown kind root outcomes tree) {id : Nat} {node : Node S α}
    (found : tree.nodes[id]? = some node) (bare : node.expanded = false) : node.visits = 0 := by
  obtain ⟨once, learnt⟩ := grown.learnt
  have visits := congrArg Prod.fst ((learnt_eq found).symm.trans (learnt id))
  rw [length_returnsAt id once, List.countP_eq_zero.mpr] at visits
  · exact visits
  · intro rollout hr passes
    obtain ⟨node', found', expanded⟩ := grown.passed rollout hr id (of_decide_eq_true passes)
    rw [found, Option.some.injEq] at found'
    rw [← found', bare] at expanded
    cases expanded

/-- After any row of rollouts the statistics of the tree are exactly those of
the rollouts that were made, and those that broke off left no trace in them. In
exact arithmetic the mean that a node comes to is the arithmetic mean. -/
theorem records_of_grown (grown : Grown kind root outcomes tree) :
    tree.Records (Rollout.made outcomes) ∧
      ∀ (K : Type) [Field K] [LinearOrder K] [IsStrictOrderedRing K] (ln sqrt : K → K)
        (returns : List K),
          @runningMean K (Scalar.exact ln sqrt) returns = returns.sum / returns.length := by
  obtain ⟨once, learnt⟩ := grown.learnt
  exact ⟨.of_learnt once learnt, fun _ _ _ _ => runningMean_exact⟩

end Tree

namespace Fork

/-- Three rollouts, of which the second breaks off, leave the statistics of the other two. -/
theorem records_of_short_long_side :
    (short.1.isOk = true ∧ long.1.isOk = false ∧ side.1.isOk = true) ∧
      side.2.tree.Records (Rollout.made [short.1, long.1, side.1]) := by
  exact ⟨by decide +kernel, (Tree.records_of_grown grown_short_long_side).1⟩

end Fork

end HorizonUct
