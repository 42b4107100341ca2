import HorizonUct.Proofs.Fork
import HorizonUct.Proofs.Rollout.Shape
import Mathlib.Data.List.Nodup

/-!
# Descents end

Only actions use up the horizon, so through nodes for states alone a descent
might go on for ever. It does not, since children come after their parents in
the table, and since below the nodes that are made on the way states and
actions alternate: at first the nodes run out, and from then on the actions.
For this a tree need not have been grown by rollouts; nodes of any kind may
have been put anywhere in it and marked at will, as long as they come without
children of their own.

A descent is bounded in its definition, so that it can be run. Here its loop is
told without the bound, turn by turn, and the bound turns out to be wide enough.
-/

namespace HorizonUct

namespace Tree

variable {S α : Type}

/-- A tree that was put together from a root in any way: nodes without children
may be put under any node, whatever their kinds, and anything may be written
into a node but its parent and its children. -/
inductive Assembled [Scalar α] : Tree S α → Prop where
  /-- A root alone. -/
  | planted (root : S) : Assembled (ofRoot root)
  /-- One more node is put under one that is there. -/
  | attached {tree : Tree S α} {parent : Nat} {child : Node S α} (assembled : Assembled tree)
      (present : parent < tree.size) (bare : child.children = []) :
      Assembled (tree.attach parent child).1
  /-- Something is written into a node. -/
  | altered {tree : Tree S α} (id : Nat) {change : Node S α → Node S α}
      (assembled : Assembled tree) (parent : ∀ node, (change node).parent = node.parent)
      (children : ∀ node, (change node).children = node.children) :
      Assembled (tree.modify id change)

/-- Below the nodes from an index on, kinds alternate. -/
structure AlternatesFrom (tree : Tree S α) (low : Nat) : Prop where
  /-- A node is of the other kind than its parent. -/
  flips : ∀ {id up : Nat} {node parent : Node S α}, tree.nodes[id]? = some node →
    node.parent = some up → low ≤ up → tree.nodes[up]? = some parent →
      node.role.isDecision = !parent.role.isDecision

variable {tree : Tree S α} {low id child : Nat} {node : Node S α}

/-- Nothing is asked of a tree by an index behind its end. -/
theorem alternatesFrom_size (tree : Tree S α) : tree.AlternatesFrom tree.size := by
  refine ⟨fun {id up node parent} _ _ behind there => ?_⟩
  have inside := lt_size there
  omega

/-- From that index on exactly one of a node and its child is an action. -/
theorem AlternatesFrom.isAction_add (alternates : tree.AlternatesFrom low) (linked : tree.Linked)
    (found : tree.nodes[id]? = some node) (named : child ∈ node.children) (from_ : low ≤ id) :
    (tree.isAction id).toNat + (tree.isAction child).toNat = 1 := by
  obtain ⟨entry, there, parent, -⟩ := linked.child found named
  rw [isAction_eq there, isAction_eq found, alternates.flips there parent from_ found]
  cases node.role.isDecision <;> rfl

variable [Scalar α]

/-- However a tree was put together, its parents and children agree. -/
theorem Assembled.linked (assembled : tree.Assembled) : tree.Linked := by
  induction assembled with
  | planted root => exact (layered_ofRoot root).toLinked
  | attached _ present bare ih => exact ih.attach present bare
  | altered _ _ parent children ih => exact ih.modify parent children

/-- Where kinds alternate, they still do after a change. -/
theorem Step.alternatesFrom {gives : Tree S α → Nat → List (Node S α) → Prop} {old new : Tree S α}
    (step : Step gives old new) (linked : old.Linked) (alternates : old.AlternatesFrom low) :
    new.AlternatesFrom low := by
  refine ⟨fun {id up node parent} there named from_ above => ?_⟩
  -- a node that was there before has kept its role and its parent
  have kept : ∀ {other : Nat} {before after : Node S α}, old.nodes[other]? = some before →
      new.nodes[other]? = some after → after.role = before.role ∧ after.parent = before.parent := by
    intro other before after hb ha
    obtain ⟨now, hn, grows⟩ := step.appends.nodes hb
    rw [ha, Option.some.injEq] at hn
    rw [hn]
    exact ⟨grows.role, grows.parent⟩
  rcases Nat.lt_or_ge id old.size with former | made
  · obtain ⟨before, hb⟩ := exists_of_lt former
    obtain ⟨role, parent'⟩ := kept hb there
    rw [parent'] at named
    obtain ⟨beforeUp, hu⟩ := exists_of_lt (Nat.lt_trans (linked.lt_of_parent hb named) former)
    rw [role, (kept hu above).1]
    exact alternates.flips hb named from_ hu
  · cases step with
    | revise changed =>
      have inside := lt_size there
      rw [size_modify] at inside
      omega
    | adopt found _ _ flips _ =>
      rcases adopt_cases (lt_size found) there with ⟨k, child, hk, -, rfl⟩ | ⟨before, hb, -⟩
      · cases Option.some.inj named
        rw [(kept found above).1]
        exact flips child (List.mem_of_getElem? hk)
      · have inside := lt_size hb
        omega

/-- Where kinds alternate, they still do after changes in a row. -/
theorem Changes.alternatesFrom {old new : Tree S α} (changes : Changes old new)
    (linked : old.Linked) (alternates : old.AlternatesFrom low) : new.AlternatesFrom low :=
  (Steps.preserve (P := fun tree => tree.Linked ∧ tree.AlternatesFrom low)
    (fun step h => ⟨step.linked h.1, step.alternatesFrom h.1 h.2⟩) changes
    ⟨linked, alternates⟩).2

end Tree

namespace Progress

variable {σ υ S α : Type} [Navigator σ S α] [Scalar α] [DrawSource υ α]

/-- The loop of a descent, with its turns counted and nothing to bound them. -/
inductive Loops (rules : Rules S α) (bias : α) :
    Nat → Nat → Nat → List (Nat × α) → Progress σ υ S α → Descent σ υ S α → Prop where
  /-- No action is left to take. -/
  | done (id : Nat) (trail : List (Nat × α)) (progress : Progress σ υ S α) :
      Loops rules bias 0 0 id trail progress ⟨progress, trail, .ok 0⟩
  /-- In its last turn it does not arrive. -/
  | refused {left id : Nat} (trail : List (Nat × α)) {progress last : Progress σ υ S α}
      {failure : Failure α} (arrive : progress.arrive id = (.error failure, last)) :
      Loops rules bias 1 (left + 1) id trail progress ⟨last, trail, .error failure⟩
  /-- In its last turn it arrives and cannot leave. -/
  | broken {left id : Nat} (trail : List (Nat × α)) {progress here last : Progress σ υ S α}
      {failure : Failure α} (arrive : progress.arrive id = (.ok (), here))
      (depart : (here.countVisit id).depart rules bias id = (.error failure, last)) :
      Loops rules bias 1 (left + 1) id trail progress
        ⟨last, (id, Scalar.zero) :: trail, .error failure⟩
  /-- In its last turn it finds no children. -/
  | stop {left id : Nat} (trail : List (Nat × α)) {progress here last : Progress σ υ S α}
      (arrive : progress.arrive id = (.ok (), here))
      (depart : (here.countVisit id).depart rules bias id = (.ok .stop, last)) :
      Loops rules bias 1 (left + 1) id trail progress
        ⟨last.tell (.deadlockMet id), (id, Scalar.zero) :: trail, .ok (left + 1)⟩
  /-- A turn leads to a selected action. -/
  | pick {turns left id child : Nat} {trail : List (Nat × α)}
      {progress here there : Progress σ υ S α} {descent : Descent σ υ S α}
      (arrive : progress.arrive id = (.ok (), here))
      (depart : (here.countVisit id).depart rules bias id = (.ok (.pick child), there))
      (rest : Loops rules bias turns (left + 1) child ((id, Scalar.zero) :: trail) there descent) :
      Loops rules bias (turns + 1) (left + 1) id trail progress descent
  /-- A turn leads to a drawn outcome, with one action less to take. -/
  | act {turns left id child : Nat} {reward : α} {trail : List (Nat × α)}
      {progress here there : Progress σ υ S α} {descent : Descent σ υ S α}
      (arrive : progress.arrive id = (.ok (), here))
      (depart : (here.countVisit id).depart rules bias id = (.ok (.act reward child), there))
      (rest : Loops rules bias turns left child ((id, reward) :: trail) there descent) :
      Loops rules bias (turns + 1) (left + 1) id trail progress descent

variable {rules : Rules S α} {bias : α} {turns left id : Nat} {trail : List (Nat × α)}
variable {progress here there : Progress σ υ S α} {descent : Descent σ υ S α}

/-- A bound that leaves enough turns makes no difference. -/
theorem Loops.descend_eq (loops : Loops rules bias turns left id trail progress descent)
    {bound : Nat} (enough : turns ≤ bound) :
    descend rules bias bound left id trail progress = descent := by
  induction loops generalizing bound with
  | done id trail progress => cases bound <;> rfl
  | refused trail arrive =>
    obtain ⟨bound, rfl⟩ := Nat.exists_eq_add_of_le' enough
    simp only [descend, arrive]
  | broken trail arrive depart | stop trail arrive depart =>
    obtain ⟨bound, rfl⟩ := Nat.exists_eq_add_of_le' enough
    simp only [descend, arrive, depart]
  | pick arrive depart rest ih | act arrive depart rest ih =>
    obtain ⟨bound, rfl⟩ := Nat.exists_eq_add_of_le' (Nat.le_of_add_left_le enough)
    simp only [descend, arrive, depart]
    exact ih (by omega)

/-- Each turn but perhaps the last one records a node. -/
theorem Loops.length_trail (loops : Loops rules bias turns left id trail progress descent) :
    descent.trail.length ≤ trail.length + turns ∧
      trail.length + turns ≤ descent.trail.length + 1 := by
  induction loops with
  | done | refused | broken | stop =>
    simp only [List.length_cons]
    omega
  | pick _ _ _ ih | act _ _ _ ih =>
    rw [List.length_cons] at ih
    omega

/-- How many turns a descent can still make when kinds alternate below the nodes
from `low` on: one for each node before that, and from there on two for each
action, or one less if it is at an action already. -/
def Lasts (progress : Progress σ υ S α) (low left id turns : Nat) : Prop :=
  low - id + 2 * left ≤ turns + if low ≤ id then (progress.tree.isAction id).toNat else 0

omit [Navigator σ S α] in
/-- A move uses up an action exactly at an action. -/
theorem Departure.left_add {move : Move α}
    (departure : Departure rules bias progress id (.ok move) there) (left : Nat) :
    move.left (left + 1) + (progress.tree.isAction id).toNat = left + 1 := by
  cases departure with
  | stop found role | pick found role | act found role =>
    rw [Tree.isAction_eq found, role]
    rfl

/-- Each turn that leads on leaves one turn less. -/
theorem Lasts.onward {low : Nat} {move : Move α} {child : Nat}
    (lasts : progress.Lasts low (left + 1) id (turns + 1)) (linked : progress.tree.Linked)
    (alternates : progress.tree.AlternatesFrom low) (arrival : Arrival progress id (.ok ()) here)
    (departure : Departure rules bias (here.countVisit id) id (.ok move) there)
    (goes : move.next? = some child) : there.Lasts low (move.left (left + 1)) child turns := by
  have changes := departure.changes arrival
  have later := departure.later linked arrival goes
  obtain ⟨before, present⟩ := arrival.found
  have same := changes.extends.isAction present
  have spent := departure.left_add left
  rw [← departure.same.1, same] at spent
  rw [Lasts] at lasts ⊢
  by_cases from_ : low ≤ id
  · obtain ⟨node, found, below⟩ := departure.below goes
    rw [← departure.same.1] at found
    have single := (changes.alternatesFrom linked alternates).isAction_add
      (changes.linked linked) found below from_
    rw [same] at single
    rw [if_pos from_] at lasts
    rw [if_pos (by omega)]
    omega
  · -- a node less to pass that was there before
    rw [if_neg from_] at lasts
    omega

/-- A descent that lasts a number of turns at most comes to an end in these. -/
theorem Lasts.exists_loops {low : Nat} (lasts : progress.Lasts low left id turns)
    (linked : progress.tree.Linked) (alternates : progress.tree.AlternatesFrom low)
    (rules : Rules S α) (bias : α) (trail : List (Nat × α)) :
    ∃ made descent, made ≤ turns ∧ Loops rules bias made left id trail progress descent := by
  induction turns generalizing left id trail progress with
  | zero =>
    cases left with
    | zero => exact ⟨0, _, Nat.le_refl 0, .done id trail progress⟩
    | succ left =>
      rw [Lasts] at lasts
      have single := (progress.tree.isAction id).toNat_le
      split at lasts <;> omega
  | succ turns ih =>
    cases left with
    | zero => exact ⟨0, _, Nat.zero_le _, .done id trail progress⟩
    | succ left =>
      have arrival := arrival_arrive progress id
      rcases arrive : progress.arrive id with ⟨failure | _, here⟩
      · exact ⟨1, _, Nat.le_add_left 1 turns, .refused trail arrive⟩
      · rw [arrive] at arrival
        have departure := departure_depart rules bias (here.countVisit id) id
        rcases depart : (here.countVisit id).depart rules bias id with ⟨failure | move, there⟩
        · exact ⟨1, _, Nat.le_add_left 1 turns, .broken trail arrive depart⟩
        · rw [depart] at departure
          have changes := departure.changes arrival
          have linked' := changes.linked linked
          have alternates' := changes.alternatesFrom linked alternates
          cases move with
          | stop => exact ⟨1, _, Nat.le_add_left 1 turns, .stop trail arrive depart⟩
          | pick child =>
            obtain ⟨made, descent, few, rest⟩ :=
              ih (lasts.onward linked alternates arrival departure rfl) linked' alternates' _
            exact ⟨made + 1, descent, Nat.succ_le_succ few, .pick arrive depart rest⟩
          | act reward child =>
            obtain ⟨made, descent, few, rest⟩ :=
              ih (lasts.onward linked alternates arrival departure rfl) linked' alternates' _
            exact ⟨made + 1, descent, Nat.succ_le_succ few, .act arrive depart rest⟩

/-- How a descent of so many actions from a node ends. -/
structure Halts (rules : Rules S α) (bias : α) (progress : Progress σ υ S α)
    (start horizon turns : Nat) (descent : Descent σ υ S α) : Prop where
  /-- It ends in so many turns. -/
  loops : Loops rules bias turns horizon start [] progress descent
  /-- There is a turn for each node at most, and two for each action. -/
  turns_le : turns ≤ progress.tree.size + 2 * horizon
  /-- If kinds alternate, there are two turns for each action at most. -/
  turns_le_of_alternates : progress.tree.AlternatesFrom 0 → turns ≤ 2 * horizon
  /-- Each turn but perhaps the last one records a node. -/
  recorded : descent.trail.length ≤ turns ∧ turns ≤ descent.trail.length + 1
  /-- No node is recorded twice. -/
  once : (descent.trail.map Prod.fst).Nodup
  /-- The bound that a rollout puts on its moves, and any wider one, makes no difference. -/
  bounded : ∀ {bound : Nat}, progress.tree.moveBound horizon ≤ bound →
    descend rules bias bound horizon start [] progress = descent

/-- What a descent comes to that has ended. -/
theorem Loops.halts {start horizon : Nat}
    (loops : Loops rules bias turns horizon start [] progress descent)
    (linked : progress.tree.Linked) (few : turns ≤ progress.tree.size + 2 * horizon)
    (fewer : progress.tree.AlternatesFrom 0 → turns ≤ 2 * horizon) :
    Halts rules bias progress start horizon turns descent := by
  obtain ⟨way, trail, descends⟩ := descends_descend rules bias turns horizon start [] progress
  rw [loops.descend_eq (Nat.le_refl turns), List.append_nil] at trail
  have recorded := loops.length_trail
  rw [List.length_nil, Nat.zero_add] at recorded
  refine ⟨loops, few, fewer, recorded, ?_, fun wide => loops.descend_eq ?_⟩
  · rw [trail, List.map_reverse]
    exact List.nodup_reverse.mpr (descends.nodup linked)
  · rw [Tree.moveBound] at wide
    omega

/-- In every tree that was put together from a root, of nodes that are put in
without children of their own, whatever kinds stand where and whatever is written
into the nodes, a descent ends, wherever it starts and whatever navigator, source,
rules and bias it goes by. -/
theorem halts_of_assembled (progress : Progress σ υ S α) (rules : Rules S α)
    (start horizon : Nat) (bias : α) (assembled : progress.tree.Assembled) :
    ∃ turns descent, Halts rules bias progress start horizon turns descent := by
  have linked := assembled.linked
  by_cases alternates : progress.tree.AlternatesFrom 0
  · have lasts : progress.Lasts 0 horizon start (2 * horizon) := by
      rw [Lasts]
      omega
    obtain ⟨turns, descent, few, loops⟩ := lasts.exists_loops linked alternates rules bias []
    exact ⟨turns, descent, loops.halts linked (by omega) fun _ => few⟩
  · have lasts : progress.Lasts progress.tree.size horizon start
        (progress.tree.size + 2 * horizon) := by
      rw [Lasts]
      omega
    obtain ⟨turns, descent, few, loops⟩ :=
      lasts.exists_loops linked progress.tree.alternatesFrom_size rules bias []
    exact ⟨turns, descent, loops.halts linked few fun h => (alternates h).elim⟩

end Progress

namespace Fork

/-- A state put under the same state, which is marked as if all its children had
been made. -/
def tangled : Tree Nat ℚ :=
  ((Tree.ofRoot 0).attach 0 (.decision 0 none)).1.modify 0 fun node =>
    { node with expanded := true }

/-- A descent of two actions through it ends all the same, after five nodes, so
one more than two for each action. -/
theorem halts_tangled : tangled.Assembled ∧ ∃ turns descent,
    Progress.Halts planner.rules 0 (planner.progress tangled) 0 2 turns descent ∧
      descent.trail.map Prod.fst = [5, 3, 2, 1, 0] := by
  have assembled : tangled.Assembled :=
    .altered 0 (.attached (.planted 0) Nat.zero_lt_one rfl) (fun _ => rfl) fun _ => rfl
  obtain ⟨turns, descent, halts⟩ :=
    Progress.halts_of_assembled (planner.progress tangled) planner.rules 0 2 0 assembled
  refine ⟨assembled, turns, descent, halts, ?_⟩
  rw [← halts.bounded (Nat.le_refl _)]
  decide +kernel

end Fork

end HorizonUct
