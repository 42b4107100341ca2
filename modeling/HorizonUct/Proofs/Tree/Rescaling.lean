import HorizonUct.Proofs.Attempt
import HorizonUct.Proofs.Mean
import HorizonUct.Proofs.Tree.Links
import HorizonUct.Rollout.Backup
import Mathlib.Tactic.FieldSimp
import Mathlib.Tactic.Ring

/-!
# Trees in another unit

Returns may be measured in another unit, which takes sums, means and scores
along and leaves every comparison as it was. In exact arithmetic each positive
factor is such a change of the unit. A tree whose means are put into another
unit is the same tree to all who pick among its nodes, and it grows and learns
in step with the former one.
-/

namespace HorizonUct

/-- A change of the unit in which returns are measured. -/
structure Rescaling {α : Type} [Scalar α] (change : α → α) : Prop where
  /-- Nought is nought in any unit. -/
  zero : change Scalar.zero = Scalar.zero
  /-- Sums are taken along. -/
  add : ∀ x y : α, change (x + y) = change x + change y
  /-- Means are taken along as they are learnt. -/
  fold : ∀ (count : Nat) (mean value : α),
    change (foldMean count mean value) = foldMean count (change mean) (change value)
  /-- So are scores, if the bias is. -/
  score : ∀ bias rarity mean : α,
    change (bias * rarity + mean) = change bias * rarity + change mean
  /-- A share of a value is taken along. -/
  share : ∀ probability value : α, change (probability * value) = probability * change value
  /-- So is the sum of no values at all. -/
  none : change (-Scalar.zero) = -Scalar.zero
  /-- Values compare as before. -/
  le : ∀ x y : α, Scalar.le (change x) (change y) = Scalar.le x y
  /-- A value exceeds every finite one if it did before. -/
  unbounded : ∀ x : α, Scalar.isUnbounded (change x) = Scalar.isUnbounded x

/-- To keep the unit is a change of it. -/
theorem Rescaling.same {α : Type} [Scalar α] : Rescaling fun value : α => value :=
  ⟨rfl, fun _ _ => rfl, fun _ _ _ => rfl, fun _ _ _ => rfl, fun _ _ => rfl, rfl, fun _ _ => rfl,
    fun _ => rfl⟩

/-- In exact arithmetic a positive factor changes the unit. -/
theorem Rescaling.factor {K : Type} [Field K] [LinearOrder K] [IsStrictOrderedRing K]
    (ln sqrt : K → K) {factor : K} (positive : 0 < factor) :
    @Rescaling K (.exact ln sqrt) (factor * ·) := by
  let _ := Scalar.exact ln sqrt
  refine ⟨?_, mul_add factor, ?_, ?_, mul_left_comm factor, ?_, ?_, fun _ => rfl⟩
  · rw [Scalar.zero_exact ln sqrt, mul_zero]
  · intro count mean value
    have unfolded : ∀ mean value : K, foldMean count mean value =
        (((count : K) - ((1 : Nat) : K)) * mean + value) / (count : K) := fun _ _ => rfl
    rw [unfolded, unfolded]
    ring
  · intro bias rarity mean
    ring
  · rw [Scalar.zero_exact ln sqrt, neg_zero, mul_zero]
  · intro x y
    exact decide_eq_decide.mpr (mul_le_mul_iff_right₀ positive)

/-- A score in another unit. -/
def Score.rescale {α : Type} (change : α → α) : Score α → Score α
  | .untried => .untried
  | .value score => .value (change score)

/-- A node with its mean in another unit. -/
def Node.rescale {S α : Type} (change : α → α) (node : Node S α) : Node S α :=
  { node with mean := change node.mean }

/-- The mean of a node that has been visited, in another unit. -/
theorem Node.mean?_rescale {S α : Type} (change : α → α) (node : Node S α) :
    (node.rescale change).mean? = node.mean?.map change :=
  (apply_ite (Option.map change) (0 < node.visits) (some node.mean) none).symm

/-- A tree with its means in another unit. -/
def Tree.rescale {S α : Type} (change : α → α) (tree : Tree S α) : Tree S α :=
  ⟨tree.nodes.map (Node.rescale change), by rw [Array.size_map]; exact tree.size_pos⟩

/-- Rewards added up in another unit. -/
def Backup.rescale {S α : Type} (change : α → α) (backup : Backup S α) : Backup S α where
  total := change backup.total
  path := backup.path.map fun entry => (entry.1, change entry.2)
  tree := backup.tree.rescale change

namespace Rescaling

variable {S α : Type} [Scalar α] {change : α → α}

/-- What is to be tried at once is so in any unit. -/
theorem isUrgent (rescaling : Rescaling change) (score : Score α) :
    (score.rescale change).isUrgent = score.isUrgent := by
  cases score with
  | untried => rfl
  | value score => exact rescaling.unbounded score

/-- Scores beat each other as before. -/
theorem beats (rescaling : Rescaling change) (next held : Score α) :
    (next.rescale change).beats (held.rescale change) = next.beats held := by
  cases next with
  | untried => rfl
  | value score =>
    cases held with
    | untried => rfl
    | value other =>
      simp only [Score.rescale, Score.beats, Scalar.isUndefined, rescaling.le]

/-- The score of a node is taken along with its mean and the bias. -/
theorem node_score (rescaling : Rescaling change) (node : Node S α) (visits : Nat) (bias : α) :
    (node.rescale change).score visits (change bias) = (node.score visits bias).rescale change := by
  rw [Node.score, Node.score, Node.rescale]
  split
  · rfl
  · rw [Score.rescale, rescaling.score]

/-- A node that is made is the same in any unit. -/
theorem node_of_blank (rescaling : Rescaling change) {node : Node S α} (blank : node.Blank) :
    node.rescale change = node := by
  rw [Node.rescale, blank.mean, rescaling.zero, ← blank.mean]

/-- A node learns a return in either unit. -/
theorem node_foldReturn (rescaling : Rescaling change) (node : Node S α) (value : α) :
    (node.foldReturn value).rescale change =
      (node.rescale change).foldReturn (change value) := by
  have learnt : ∀ (node : Node S α) (value : α),
      node.foldReturn value = { node with mean := foldMean node.visits node.mean value } :=
    fun _ _ => rfl
  rw [learnt, learnt, Node.rescale, Node.rescale, rescaling.fold]

end Rescaling

namespace Tree

variable {S α : Type} {change : α → α} (tree : Tree S α) (id : Nat)

/-- Looking a node up in another unit. -/
theorem getElem?_rescale :
    (tree.rescale change).nodes[id]? = tree.nodes[id]?.map (Node.rescale change) :=
  Array.getElem?_map

/-- Trees with the same nodes are the same. -/
theorem eq_of_nodes {first second : Tree S α} (h : first.nodes = second.nodes) :
    first = second := by
  cases first
  cases second
  cases h
  rfl

/-- To keep the unit changes nothing. -/
theorem rescale_same : (tree.rescale fun value => value) = tree :=
  eq_of_nodes (Array.map_id tree.nodes)

/-- The number of nodes is the same in any unit. -/
@[simp]
theorem size_rescale : (tree.rescale change).size = tree.size :=
  Array.size_map

/-- The root in another unit. -/
theorem root_rescale : (tree.rescale change).root = tree.root.rescale change := by
  have same : (tree.rescale change).nodes[0]? = _ := tree.getElem?_rescale 0
  rw [getElem?_root, getElem?_root, Option.map_some] at same
  exact Option.some.inj same

/-- As many nodes stand for states in any unit. -/
theorem decisionNodes_rescale : (tree.rescale change).decisionNodes = tree.decisionNodes :=
  Array.countP_map

/-- As many nodes stand for actions in any unit. -/
theorem chanceNodes_rescale : (tree.rescale change).chanceNodes = tree.chanceNodes :=
  Array.countP_map

/-- A node in another unit. -/
theorem node_rescale :
    (tree.rescale change).node id = (tree.node id).map (Node.rescale change) := by
  rw [node, node, getElem?_rescale]
  cases tree.nodes[id]? <;> rfl

/-- The children of a node in another unit. -/
theorem children_rescale : (tree.rescale change).children id =
    (tree.children id).map (List.map fun entry => (entry.1, entry.2.rescale change)) := by
  rw [children, children, node_rescale]
  cases tree.node id with
  | error failure => rfl
  | ok parent =>
    have step : ∀ child : Nat,
        (do return (child, ← (tree.rescale change).node child) : Except (Failure α) _) =
          (do return (child, ← tree.node child) : Except (Failure α) _).map
            fun entry => (entry.1, entry.2.rescale change) := by
      intro child
      rw [node_rescale]
      cases tree.node child <;> rfl
    exact (congrArg parent.children.mapM (funext step)).trans (Attempt.mapM_map_results _ _ _)

/-- A node belongs to the same state in any unit. -/
theorem stateOf_rescale : (tree.rescale change).stateOf id = tree.stateOf id := by
  rw [stateOf, stateOf, node_rescale]
  cases tree.node id with
  | error failure => rfl
  | ok node =>
    obtain ⟨role, reach, visits, expanded, mean, parent, children⟩ := node
    cases role with
    | decision state => rfl
    | chance index label =>
      cases parent with
      | none => rfl
      | some up =>
        show (do return (← (tree.rescale change).node up).role.state? : Except (Failure α) _) =
          (do return (← tree.node up).role.state? : Except (Failure α) _)
        rw [node_rescale]
        cases tree.node up <;> rfl

/-- A change of one node and a change of the unit may be made in either order. -/
theorem rescale_modify (revise revise' : Node S α → Node S α)
    (alike : ∀ node, (revise node).rescale change = revise' (node.rescale change)) :
    (tree.modify id revise).rescale change = (tree.rescale change).modify id revise' := by
  refine eq_of_nodes (Array.ext_getElem? fun other => ?_)
  rw [getElem?_rescale, getElem?_modify, getElem?_modify, getElem?_rescale]
  split
  · rw [Option.map_map, Option.map_map]
    exact congrArg (tree.nodes[other]?.map ·) (funext alike)
  · rfl

/-- Visits are taken back in any unit. -/
theorem rescale_dropVisits (trail : List (Nat × α)) :
    (tree.dropVisits trail).rescale change =
      (tree.rescale change).dropVisits (trail.map fun entry => (entry.1, change entry.2)) := by
  induction trail generalizing tree with
  | nil => rfl
  | cons entry rest ih =>
    show ((tree.modify entry.1 Node.dropVisit).dropVisits rest).rescale change =
      ((tree.rescale change).modify entry.1 Node.dropVisit).dropVisits (rest.map _)
    rw [ih, tree.rescale_modify entry.1 Node.dropVisit Node.dropVisit fun _ => rfl]

variable [Scalar α]

/-- A blank node is put under a parent in any unit. -/
theorem rescale_attach (rescaling : Rescaling change) {child : Node S α} (blank : child.Blank) :
    (tree.attach id child).1.rescale change = ((tree.rescale change).attach id child).1 := by
  refine eq_of_nodes (Array.ext_getElem? fun other => ?_)
  rw [getElem?_rescale, getElem?_attach, getElem?_attach, getElem?_rescale, size_rescale,
    Option.map_map]
  have new : ({ child with parent := some id } : Node S α).rescale change =
      { child with parent := some id } :=
    rescaling.node_of_blank ⟨blank.visits, blank.mean, blank.expanded, blank.children⟩
  have found : (if other = tree.size then some { child with parent := some id }
      else tree.nodes[other]?.map (Node.rescale change)) =
      (if other = tree.size then some { child with parent := some id }
        else tree.nodes[other]?).map (Node.rescale change) := by
    split
    · exact congrArg some new.symm
    · rfl
  rw [found, Option.map_map]
  refine congrArg (Option.map · _) (funext fun node => ?_)
  dsimp only [Function.comp]
  split <;> rfl

/-- Blank nodes are put under a parent in any unit. -/
theorem rescale_attachAll (rescaling : Rescaling change) {children : List (Node S α)}
    (blank : ∀ child ∈ children, child.Blank) :
    (tree.attachAll id children).rescale change =
      (tree.rescale change).attachAll id children := by
  induction children generalizing tree with
  | nil => rfl
  | cons child rest ih =>
    rw [attachAll, attachAll, List.foldl_cons, List.foldl_cons,
      ← tree.rescale_attach id rescaling (blank child List.mem_cons_self)]
    exact ih _ fun other h => blank other (List.mem_cons_of_mem _ h)

/-- Blank nodes are adopted in any unit. -/
theorem rescale_adopt (rescaling : Rescaling change) {children : List (Node S α)}
    (blank : ∀ child ∈ children, child.Blank) :
    (tree.adopt id children).rescale change = (tree.rescale change).adopt id children := by
  rw [adopt_eq, adopt_eq, ← tree.rescale_attachAll id rescaling blank]
  exact rescale_modify _ id _ _ fun _ => rfl

/-- Rewards add up along a trail in either unit. -/
theorem rescale_add (rescaling : Rescaling change) (backup : Backup S α) (entry : Nat × α) :
    (backup.add entry).rescale change =
      (backup.rescale change).add (entry.1, change entry.2) := by
  have total : change (backup.total + entry.2) = change backup.total + change entry.2 :=
    rescaling.add backup.total entry.2
  have learnt := backup.tree.rescale_modify entry.1 (·.foldReturn (backup.total + entry.2))
    (·.foldReturn (change backup.total + change entry.2))
    fun node => by rw [rescaling.node_foldReturn, total]
  rw [Backup.add, Backup.add]
  simp only [Backup.rescale, List.map_cons, total, learnt]

/-- Returns that are learnt along a trail are learnt in any unit. -/
theorem rescale_backUp (rescaling : Rescaling change) (trail : List (Nat × α)) :
    (tree.rescale change).backUp (trail.map fun entry => (entry.1, change entry.2)) =
      (tree.backUp trail).rescale change := by
  have key : ∀ backup : Backup S α,
      (trail.map fun entry => (entry.1, change entry.2)).foldl Backup.add
        (backup.rescale change) = (trail.foldl Backup.add backup).rescale change := by
    induction trail with
    | nil => exact fun _ => rfl
    | cons entry rest ih =>
      intro backup
      rw [List.map_cons, List.foldl_cons, List.foldl_cons, ← ih, rescale_add rescaling]
  refine Eq.trans ?_ (key ⟨Scalar.zero, [], tree⟩)
  rw [backUp, Backup.rescale, rescaling.zero]
  rfl

/-- The same child is tried next if the bias is in the other unit too. -/
theorem select_rescale (rescaling : Rescaling change) (bias : α) :
    (tree.rescale change).select id (change bias) = tree.select id bias := by
  rw [select, select, node_rescale, children_rescale]
  cases tree.node id with
  | error failure => rfl
  | ok node =>
    cases tree.children id with
    | error failure => rfl
    | ok children =>
      have scored : ((children.map fun entry => (entry.1, entry.2.rescale change)).map
          fun entry => (entry.1, entry.2.score (node.rescale change).visits (change bias))) =
          (children.map fun entry => (entry.1, entry.2.score node.visits bias)).map
            fun entry => (entry.1, entry.2.rescale change) := by
        rw [List.map_map, List.map_map]
        refine List.map_congr_left fun entry _ => ?_
        exact congrArg (Prod.mk entry.1) (rescaling.node_score entry.2 node.visits bias)
      refine congrArg Except.ok ?_
      show (Option.or _ _).map _ = (Option.or _ _).map _
      dsimp only
      rw [scored, List.find?_map, leader_map fun next held => rescaling.beats next.2 held.2]
      rw [← Option.map_or, Option.map_map]
      refine congrArg (fun urgent => (Option.or urgent _).map _) ?_
      refine congrArg (fun test => List.find? test _) (funext fun entry => ?_)
      exact rescaling.isUrgent entry.2

/-- The same child is favoured in any unit. -/
theorem favourite_rescale (rescaling : Rescaling change) :
    (tree.rescale change).favourite id = tree.favourite id := by
  rw [favourite, favourite, children_rescale]
  cases tree.children id with
  | error failure => rfl
  | ok children =>
    have candidates : ((children.map fun entry => (entry.1, entry.2.rescale change)).filterMap
        fun entry => entry.2.mean?.map fun mean => (entry.1, mean)) =
        (children.filterMap fun entry => entry.2.mean?.map fun mean => (entry.1, mean)).map
          fun entry => (entry.1, change entry.2) := by
      rw [List.filterMap_map, List.map_filterMap]
      refine List.filterMap_congr fun entry _ => ?_
      dsimp only [Function.comp]
      rw [Node.mean?_rescale, Option.map_map, Option.map_map]
      rfl
    refine congrArg Except.ok ?_
    show (leader _ _).map _ = (leader _ _).map _
    dsimp only
    rw [candidates, leader_map fun next held => congrArg not (rescaling.le next.2 held.2),
      Option.map_map]
    rfl

/-- The same outcome is drawn in any unit of returns, which probabilities are not measured in. -/
theorem draw_rescale {υ : Type} [DrawSource υ α] (tolerance : α) (source : υ) :
    (tree.rescale change).draw id tolerance source = tree.draw id tolerance source := by
  rw [draw, draw, children_rescale]
  cases tree.children id with
  | error failure => rfl
  | ok children =>
    have weights : ((children.map fun entry => (entry.1, entry.2.rescale change)).map
        fun entry => (entry.1, entry.2.reach.getD Scalar.zero)) =
        children.map fun entry => (entry.1, entry.2.reach.getD Scalar.zero) :=
      List.map_map
    show Except.bind (.ok _) _ = Except.bind (.ok _) _
    simp only [Except.bind, weights]

/-- A root alone is the same in any unit. -/
theorem rescale_ofRoot (rescaling : Rescaling change) (state : S) :
    (ofRoot state : Tree S α).rescale change = ofRoot state := by
  have same := rescaling.node_of_blank (Node.blank_fresh (Role.decision state) none)
  refine eq_of_nodes ?_
  show #[Node.decision state none].map (Node.rescale change) = #[Node.decision state none]
  rw [List.map_toArray, List.map_singleton]
  exact congrArg (fun node => #[node]) same

end Tree

end HorizonUct
