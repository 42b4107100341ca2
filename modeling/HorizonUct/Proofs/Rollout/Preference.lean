import HorizonUct.Proofs.Rollout.Record

/-!
# Rollouts go where exploring prefers

What exploring selects at a state depends on the visits of the state and on
the statistics of its actions alone. A descent counts the visit of a state
before it selects, and nothing on the way to a state changes what its actions
have learnt. So at each state that has actions already, a rollout passes the
one that the tree before the rollout prefers with one more visit.
-/

namespace HorizonUct

namespace Tree

variable {S α : Type} [Scalar α] {tree new : Tree S α} {id kid child visits : Nat} {bias : α}
variable {node : Node S α}

/-- The score of a node, which is untried if it is not there. -/
def scoreAt (tree : Tree S α) (visits : Nat) (bias : α) (id : Nat) : Score α :=
  tree.nodes[id]?.elim .untried (·.score visits bias)

/-- Statistics are all that a score depends on. -/
theorem scoreAt_congr (h : new.learnt kid = tree.learnt kid) :
    new.scoreAt visits bias kid = tree.scoreAt visits bias kid := by
  unfold learnt at h
  unfold scoreAt
  cases hn : new.nodes[kid]? <;> cases ho : tree.nodes[kid]? <;>
    simp_all [Node.score, Option.elim]

/-- The one of some nodes that exploring goes on with. -/
def preferred (tree : Tree S α) (visits : Nat) (bias : α) (kids : List Nat) : Option Nat :=
  let scored := kids.map fun kid => (kid, tree.scoreAt visits bias kid)
  ((scored.find? (·.2.isUrgent)).or
    (leader (fun next held => next.2.beats held.2) scored)).map (·.1)

/-- What is selected at a node is preferred among its children. -/
theorem select_eq (found : tree.nodes[id]? = some node)
    (h : tree.select id bias = .ok (some child)) :
    tree.preferred node.visits bias node.children = some child := by
  obtain ⟨node', found', h⟩ := Attempt.bind_eq_ok_iff.mp h
  rw [node_eq_ok_iff.mpr found, Except.ok.injEq] at found'
  subst found'
  obtain ⟨below, looked, h⟩ := Attempt.bind_eq_ok_iff.mp h
  have scored : (node.children.map fun kid => (kid, tree.scoreAt node.visits bias kid)) =
      below.map fun entry => (entry.1, entry.2.score node.visits bias) := by
    rw [← children_fst looked found, List.map_map]
    refine List.map_congr_left fun entry he => ?_
    rw [Function.comp_apply, scoreAt, getElem?_of_mem_children looked he, Option.elim_some]
  rw [preferred, scored]
  exact Except.ok.inj h

/-- Statistics are all that the preference depends on. -/
theorem preferred_congr {kids : List Nat} (h : ∀ kid ∈ kids, new.learnt kid = tree.learnt kid) :
    new.preferred visits bias kids = tree.preferred visits bias kids := by
  have scored : (kids.map fun kid => (kid, new.scoreAt visits bias kid)) =
      kids.map fun kid => (kid, tree.scoreAt visits bias kid) :=
    List.map_congr_left fun kid hk => by rw [scoreAt_congr (h kid hk)]
  rw [preferred, scored, preferred]

/-- If one of the first nodes is to be tried at once, then such a one of them is preferred. -/
theorem preferred_append {first more : List Nat} (early : kid ∈ first)
    (urgent : (tree.scoreAt visits bias kid).isUrgent = true)
    (h : tree.preferred visits bias (first ++ more) = some child) :
    child ∈ first ∧ (tree.scoreAt visits bias child).isUrgent = true := by
  have found : ∃ winner, first.find? (fun kid => (tree.scoreAt visits bias kid).isUrgent) =
      some winner := by
    rw [← Option.isSome_iff_exists, List.find?_isSome]
    exact ⟨kid, early, urgent⟩
  obtain ⟨winner, hw⟩ := found
  have asked : ((fun scored : Nat × Score α => scored.2.isUrgent) ∘
      fun kid => (kid, tree.scoreAt visits bias kid)) =
        fun kid => (tree.scoreAt visits bias kid).isUrgent := rfl
  rw [preferred, List.find?_map, asked, List.find?_append, hw] at h
  have won : winner = child := Option.some.inj h
  have beyond := List.find?_some hw
  exact won ▸ ⟨List.mem_of_find?_eq_some hw, beyond⟩

end Tree

namespace Progress

variable {σ υ S α : Type} [Navigator σ S α] [Scalar α] [DrawSource υ α]
variable {progress last : Progress σ υ S α} {rules : Rules S α} {bias : α} {left id rest : Nat}
variable {way : List (Nat × α)}

/-- A descent that came to its end with actions left has passed its first node. -/
theorem Descends.passed_first
    (descent : Descends rules bias (left + 1) id progress way last (.ok rest)) :
    id ∈ way.map Prod.fst := by
  cases descent <;> exact List.mem_cons_self

/-- What a departure leaves of a node that has children and does not come
before the one it leaves: its children with all that they have learnt. -/
theorem Departure.keeps {here there : Progress σ υ S α} {result : Except (Failure α) (Move α)}
    (layered : progress.tree.Layered) (arrival : Arrival progress id (.ok ()) here)
    (departure : Departure rules bias (here.countVisit id) id result there) {state : Nat}
    {node : Node S α} (found : progress.tree.nodes[state]? = some node)
    (some : node.children ≠ []) (ahead : id ≤ state) :
    ∃ after, there.tree.nodes[state]? = .some after ∧ after.role = node.role ∧
      after.children = node.children ∧ after.visits = node.visits + [id].count state ∧
        ∀ kid ∈ node.children, there.tree.learnt kid = progress.tree.learnt kid := by
  have counted := departure.learnt arrival
  obtain ⟨after, ha, kept⟩ := (departure.changes arrival).extends found
  have expanded := layered.expanded found some
  have visits := counted state
  rw [Tree.learnt_eq ha, Tree.learnt_eq found] at visits
  refine ⟨after, ha, kept.role, kept.children expanded, congrArg Prod.fst visits, ?_⟩
  intro kid hk
  obtain ⟨-, -, -, later⟩ := layered.toLinked.child found hk
  have apart : id ≠ kid := by omega
  rw [counted kid, List.count_singleton, if_neg (by simpa using apart), Nat.add_zero]

/-- What a descent passes below states that come later it passes after it has
left a node. -/
theorem Departure.passed_later {here there : Progress σ υ S α}
    {result : Except (Failure α) (Move α)} (layered : progress.tree.Layered)
    (arrival : Arrival progress id (.ok ()) here)
    (departure : Departure rules bias (here.countVisit id) id result there) {state : Nat}
    {node : Node S α} (found : progress.tree.nodes[state]? = some node)
    (some : node.children ≠ []) (ahead : id < state) {names : List Nat}
    (later : ∀ after : Node S α, there.tree.nodes[state]? = .some after →
      after.role = node.role → after.children = node.children →
        ∃ child ∈ after.children, child ∈ names ∧
          there.tree.preferred (after.visits + 1) bias after.children = .some child) :
    ∃ child ∈ node.children, child ∈ id :: names ∧
      progress.tree.preferred (node.visits + 1) bias node.children = .some child := by
  obtain ⟨after, ha, role, kids, visits, same⟩ :=
    departure.keeps layered arrival found some (Nat.le_of_lt ahead)
  obtain ⟨child, below, hc, picked⟩ := later after ha role kids
  have apart : id ≠ state := Nat.ne_of_lt ahead
  rw [List.count_singleton, if_neg (by simpa using apart), Nat.add_zero] at visits
  rw [kids, visits, Tree.preferred_congr same] at picked
  exact ⟨child, kids ▸ below, List.mem_cons_of_mem _ hc, picked⟩

/-- At each state that was there before, a descent passes the action that is
preferred when one more visit of the state is counted. -/
theorem Descends.passed_preferred
    (descent : Descends rules bias left id progress way last (.ok rest))
    (layered : progress.tree.Layered) {state : Nat} {node : Node S α}
    (found : progress.tree.nodes[state]? = some node) (role : node.role.isDecision = true)
    (some : node.children ≠ []) (passed : state ∈ way.map Prod.fst) :
    ∃ child ∈ node.children, child ∈ way.map Prod.fst ∧
      progress.tree.preferred (node.visits + 1) bias node.children = .some child := by
  generalize hr : (.ok rest : Except (Failure α) Nat) = result at descent
  induction descent generalizing node with
  | horizon => cases passed
  | endless | refused | broken => cases hr
  | stop arrival departure =>
    -- nothing can be selected only where there are no children
    obtain rfl := List.mem_singleton.mp passed
    obtain ⟨after, ha, -, kids, -⟩ := departure.keeps layered arrival found some le_rfl
    cases departure with
    | stop _ _ selected => exact (some (kids ▸ Tree.select_eq_none selected ha)).elim
  | pick arrival departure onward ih =>
    have layered' := (departure.changes arrival).layered layered
    rcases List.mem_cons.mp passed with rfl | passed
    · obtain ⟨after, ha, -, kids, visits, same⟩ := departure.keeps layered arrival found some le_rfl
      cases departure with
      | pick _ _ selected =>
        subst hr
        have below := Tree.mem_of_select selected ha
        have picked := Tree.select_eq ha selected
        rw [kids, visits, List.count_singleton_self, Tree.preferred_congr same] at picked
        exact ⟨_, kids ▸ below, List.mem_cons_of_mem _ onward.passed_first, picked⟩
    · have ahead := (departure.later layered.toLinked arrival rfl).trans_le
        ((onward.ascending layered'.toLinked).2 state passed)
      exact departure.passed_later layered arrival found some ahead fun after ha role' kids =>
        ih layered' ha (role' ▸ role) (kids ▸ some) passed hr
  | act arrival departure onward ih =>
    have layered' := (departure.changes arrival).layered layered
    rcases List.mem_cons.mp passed with rfl | passed
    · obtain ⟨after, ha, role', -⟩ := departure.keeps layered arrival found some le_rfl
      cases departure with
      | act found' chance _ _ =>
        have same := Option.some.inj (ha.symm.trans found')
        rw [← role', same, chance] at role
        cases role
    · have ahead := (departure.later layered.toLinked arrival rfl).trans_le
        ((onward.ascending layered'.toLinked).2 state passed)
      exact departure.passed_later layered arrival found some ahead fun after ha role' kids =>
        ih layered' ha (role' ▸ role) (kids ▸ some) passed hr

/-- At each state that was there before, a rollout passes the action that is
preferred when one more visit of the state is counted. -/
theorem Rolls.passed_preferred {start horizon : Nat} {rollout : Rollout α}
    (rolls : Rolls rules progress start horizon bias (.ok rollout) last)
    (layered : progress.tree.Layered) {state : Nat} {node : Node S α}
    (found : progress.tree.nodes[state]? = some node) (role : node.role.isDecision = true)
    (some : node.children ≠ []) (passed : state ∈ rollout.path.map Prod.fst) :
    ∃ child ∈ node.children, child ∈ rollout.path.map Prod.fst ∧
      progress.tree.preferred (node.visits + 1) bias node.children = .some child := by
  cases rolls with
  | idle nought => cases passed
  | made _ approach descent =>
    rw [Tree.path_backUp] at passed ⊢
    rw [← approach.same] at layered found ⊢
    exact descent.passed_preferred layered found role some passed

end Progress

end HorizonUct
