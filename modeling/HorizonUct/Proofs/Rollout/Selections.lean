import HorizonUct.Proofs.Rollout.Growth

/-!
# The selections of a descent

A descent that is in a state selects an action there, after the visit of the
state has been counted. What it has come to in that moment decides on the
action. It makes no difference whether the descent comes to its end later or
breaks off.
-/

namespace HorizonUct.Progress

variable {σ υ S α : Type} [Navigator σ S α] [Scalar α] [DrawSource υ α]
variable {rules : Rules S α} {bias : α} {left id state action : Nat}
variable {progress last moment : Progress σ υ S α}

/-- A descent selects an action in a state, and this is what it has come to in
the moment when it does. -/
inductive Selects (rules : Rules S α) (bias : α) :
    Nat → Nat → Progress σ υ S α → Progress σ υ S α → Nat → Nat → Prop where
  /-- The descent starts from the state. -/
  | here {left id child : Nat} {progress here there : Progress σ υ S α}
      (arrival : Arrival progress id (.ok ()) here)
      (departure : Departure rules bias (here.countVisit id) id (.ok (.pick child)) there) :
      Selects rules bias (left + 1) id progress (here.countVisit id) id child
  /-- The descent goes on to a selected action, and selects the other one below it. -/
  | pick {left id child state action : Nat} {progress here there moment : Progress σ υ S α}
      (arrival : Arrival progress id (.ok ()) here)
      (departure : Departure rules bias (here.countVisit id) id (.ok (.pick child)) there)
      (below : Selects rules bias (left + 1) child there moment state action) :
      Selects rules bias (left + 1) id progress moment state action
  /-- The descent goes on to a drawn outcome, and selects the action below it. -/
  | act {left id child state action : Nat} {reward : α}
      {progress here there moment : Progress σ υ S α}
      (arrival : Arrival progress id (.ok ()) here)
      (departure : Departure rules bias (here.countVisit id) id (.ok (.act reward child)) there)
      (below : Selects rules bias left child there moment state action) :
      Selects rules bias (left + 1) id progress moment state action

/-- A selection is what the tree of its moment makes of a node that stands for a state. -/
theorem Selects.selected (selects : Selects rules bias left id progress moment state action) :
    ∃ node, moment.tree.nodes[state]? = some node ∧ node.role.isDecision = true ∧
      moment.tree.select state bias = .ok (some action) := by
  induction selects with
  | here arrival departure =>
    cases departure with
    | pick found role selected => exact ⟨_, found, by rw [role]; rfl, selected⟩
  | pick arrival departure below ih => exact ih
  | act arrival departure below ih => exact ih

/-- A descent passes no other node first than the one it starts from. -/
theorem Descends.head_eq {way : List (Nat × α)} {result : Except (Failure α) Nat}
    (descent : Descends rules bias left id progress way last result) {first : Nat}
    {names : List Nat} (passed : way.map Prod.fst = first :: names) : first = id := by
  cases descent <;> simp_all

/-- Where the way of a descent goes on from a state, the next node was selected. -/
theorem Descends.selects {way : List (Nat × α)} {result : Except (Failure α) Nat}
    (descent : Descends rules bias left id progress way last result)
    (next : [state, action] <:+: way.map Prod.fst)
    (role : ∀ node, last.tree.nodes[state]? = some node → node.role.isDecision = true) :
    ∃ moment, Selects rules bias left id progress moment state action := by
  induction descent with
  | horizon | endless | refused => simp at next
  | broken | stop =>
    have short := next.length_le
    simp at short
  | @pick left id child progress here there last way result arrival departure onward ih =>
    rw [List.map_cons, List.infix_cons_iff] at next
    rcases next with first | later
    · obtain ⟨rfl, names, passed⟩ := List.cons_prefix_cons.mp first
      obtain rfl := onward.head_eq passed.symm
      exact ⟨_, .here arrival departure⟩
    · obtain ⟨moment, selects⟩ := ih later role
      exact ⟨moment, .pick arrival departure selects⟩
  | @act left id child reward progress here there last way result arrival departure onward ih =>
    rw [List.map_cons, List.infix_cons_iff] at next
    rcases next with first | later
    · -- an action stays one, so it is not the state
      obtain ⟨rfl, -⟩ := List.cons_prefix_cons.mp first
      cases departure with
      | act found chance _ _ =>
        obtain ⟨after, ha, kept⟩ := onward.changes.extends found
        have decision := role after ha
        rw [kept.role, chance] at decision
        cases decision
    · obtain ⟨moment, selects⟩ := ih later role
      exact ⟨moment, .act arrival departure selects⟩

end HorizonUct.Progress
