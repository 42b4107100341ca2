import HorizonUct.Proofs.Rollout.Record
import HorizonUct.Proofs.Tree.Depth

/-!
# Routes through a finished tree

The way of a rollout that was made can be retraced in the tree it leaves: each
node is expanded and has the next one among its children, what an action
earned can be told in the state above it, and its probabilities make a
distribution. A route ends at a state without children, or below the last
action that was allowed. It stays a route as the tree grows.
-/

namespace HorizonUct

namespace Tree

variable {S α : Type} {tree new : Tree S α} {rules : Rules S α} {left id rest : Nat}
variable {way : List (Nat × α)}

/-- What an action earns is the reward of its label in the state it belongs to. -/
theorem earned_eq_ok_iff {label : String} {reward : α} :
    tree.earned rules id label = .ok reward ↔
      ∃ state, tree.stateOf id = .ok (some state) ∧ rules.reward state label = .ok reward := by
  rw [earned, Attempt.bind_eq_ok_iff]
  constructor
  · rintro ⟨_ | state, owner, told⟩
    · cases told
    · exact ⟨state, owner, told⟩
  · rintro ⟨state, owner, told⟩
    exact ⟨some state, owner, told⟩

/-- As a tree grows, actions keep earning the same. -/
theorem Extends.earned {label : String} {reward : α} (h : tree.Extends new)
    (earned : tree.earned rules id label = .ok reward) :
    new.earned rules id label = .ok reward := by
  obtain ⟨state, owner, told⟩ := earned_eq_ok_iff.mp earned
  exact earned_eq_ok_iff.mpr ⟨state, h.stateOf owner, told⟩

variable [Scalar α]

/-- A way through a tree from a node, with so many actions left at its start
and at its end. -/
inductive Route (rules : Rules S α) (tree : Tree S α) :
    Nat → Nat → List (Nat × α) → Nat → Prop where
  /-- No action is left to take. -/
  | horizon (id : Nat) : Route rules tree 0 id [] 0
  /-- The way ends at a state without children. -/
  | stop {left id : Nat} {node : Node S α} (found : tree.nodes[id]? = some node)
      (expanded : node.expanded = true) (role : node.role.isDecision = true)
      (bare : node.children = []) : Route rules tree (left + 1) id [(id, Scalar.zero)] (left + 1)
  /-- The way leads from a state to an action. -/
  | pick {left id child rest : Nat} {node : Node S α} {way : List (Nat × α)}
      (found : tree.nodes[id]? = some node) (expanded : node.expanded = true)
      (role : node.role.isDecision = true) (below : child ∈ node.children)
      (onward : Route rules tree (left + 1) child way rest) :
      Route rules tree (left + 1) id ((id, Scalar.zero) :: way) rest
  /-- The way leads from an action to a state. -/
  | act {left id child rest index : Nat} {label : String} {reward : α} {node : Node S α}
      {way : List (Nat × α)} (found : tree.nodes[id]? = some node)
      (expanded : node.expanded = true) (role : node.role = .chance index label)
      (earned : tree.earned rules id label = .ok reward) (fair : tree.Fair rules.tolerance id)
      (below : child ∈ node.children) (onward : Route rules tree left child way rest) :
      Route rules tree (left + 1) id ((id, reward) :: way) rest

/-- As a tree grows, routes stay. -/
theorem Route.extends (route : Route rules tree left id way rest) (h : tree.Extends new) :
    Route rules new left id way rest := by
  induction route with
  | horizon id => exact .horizon id
  | stop found expanded role bare =>
    obtain ⟨after, ha, kept⟩ := h found
    exact .stop ha (kept.expanded expanded) (by rw [kept.role, role])
      (by rw [kept.children expanded, bare])
  | pick found expanded role below _ ih =>
    obtain ⟨after, ha, kept⟩ := h found
    exact .pick ha (kept.expanded expanded) (by rw [kept.role, role])
      (by rw [kept.children expanded]; exact below) ih
  | act found expanded role earned fair below _ ih =>
    obtain ⟨after, ha, kept⟩ := h found
    exact .act ha (kept.expanded expanded) (kept.role.trans role) (h.earned earned)
      (fair.extends h found expanded) (by rw [kept.children expanded]; exact below) ih

/-- The nodes of a route lie above the horizon. -/
theorem Route.shallow (route : Route rules tree left id way rest) (linked : tree.Linked)
    {depth : Nat} (depthAt : tree.DepthAt id depth) :
    ∀ other ∈ way.map Prod.fst, ∃ depth', tree.DepthAt other depth' ∧ depth' < depth + left := by
  induction route generalizing depth with
  | horizon => nofun
  | stop =>
    intro other h
    rw [List.mem_singleton.mp h]
    exact ⟨depth, depthAt, by omega⟩
  | pick found expanded role below _ ih =>
    intro other h
    have child := depthAt.atChild linked found below
    rw [role, if_pos rfl] at child
    rcases List.mem_cons.mp h with rfl | h
    · exact ⟨depth, depthAt, by omega⟩
    · exact ih child other h
  | act found expanded role earned fair below _ ih =>
    intro other h
    have child := depthAt.atChild linked found below
    rw [role, Role.isDecision, if_neg Bool.false_ne_true] at child
    rcases List.mem_cons.mp h with rfl | h
    · exact ⟨depth, depthAt, by omega⟩
    · obtain ⟨depth', depthAt', hlt⟩ := ih child other h
      exact ⟨depth', depthAt', by omega⟩

/-- An action on a route has earned something, and its probabilities make a distribution. -/
theorem Route.sampled (route : Route rules tree left id way rest) {other : Nat} {node : Node S α}
    {index : Nat} {label : String} (passed : other ∈ way.map Prod.fst)
    (found : tree.nodes[other]? = some node) (role : node.role = .chance index label) :
    (∃ reward, tree.earned rules other label = .ok reward) ∧ tree.Fair rules.tolerance other := by
  have decides : ∀ {node' : Node S α}, tree.nodes[other]? = some node' →
      node'.role.isDecision = true → False := by
    intro node' found' role'
    rw [found, Option.some.injEq] at found'
    rw [← found', role] at role'
    cases role'
  induction route with
  | horizon => cases passed
  | stop found' _ role' =>
    rw [List.mem_singleton.mp passed] at decides
    exact (decides found' role').elim
  | pick found' _ role' _ _ ih =>
    rcases List.mem_cons.mp passed with rfl | passed
    · exact (decides found' role').elim
    · exact ih passed
  | act found' _ role' earned fair _ _ ih =>
    rcases List.mem_cons.mp passed with rfl | passed
    · rw [found, Option.some.injEq] at found'
      rw [← found', role] at role'
      cases role'
      exact ⟨⟨_, earned⟩, fair⟩
    · exact ih passed

end Tree

namespace Progress

variable {σ υ S α : Type} [Navigator σ S α] [Scalar α]
variable {progress here there last : Progress σ υ S α} {left id : Nat} {way : List (Nat × α)}

/-- Where a descent arrives, only that node is newly expanded. -/
theorem Arrival.widens (arrival : Arrival progress id (.ok ()) here) {other : Nat}
    {node : Node S α} (found : here.tree.nodes[other]? = some node)
    (expanded : node.expanded = true) : other = id ∨
      ∃ before, progress.tree.nodes[other]? = some before ∧ before.expanded = true := by
  cases arrival with
  | known => exact .inr ⟨node, found, expanded⟩
  | opened found' stands bare asked =>
    rcases Tree.adopt_cases (Tree.lt_size found') found with ⟨k, child, hk, -, rfl⟩ | ⟨old, ho, hf⟩
    · have blank := (Role.offspring_eq_ok asked child (List.mem_of_getElem? hk)).1
      rw [blank.expanded] at expanded
      cases expanded
    · by_cases he : id = other
      · exact .inl he.symm
      · rw [if_neg he] at hf
        exact .inr ⟨old, ho, hf ▸ expanded⟩

variable [DrawSource υ α] {rules : Rules S α} {bias : α}

/-- A descent that came to its end has taken a route through the tree it leaves. -/
theorem Descends.route {rest : Nat} (layered : progress.tree.Layered)
    (descent : Descends rules bias left id progress way last (.ok rest)) :
    last.tree.Route rules left id way rest := by
  generalize hr : (.ok rest : Except (Failure α) Nat) = result at descent
  induction descent with
  | horizon id =>
    cases hr
    exact .horizon id
  | endless | refused | broken => cases hr
  | stop arrival departure =>
    cases hr
    obtain ⟨node, found, expanded⟩ := departure.opened arrival
    cases departure with
    | stop found' role selected =>
      rw [found, Option.some.injEq] at found'
      subst found'
      exact .stop found expanded (by rw [role]; rfl) (Tree.select_eq_none selected found)
  | pick arrival departure rest ih =>
    have layered := (departure.changes arrival).layered layered
    obtain ⟨node, found, expanded⟩ := departure.opened arrival
    obtain ⟨after, ha, kept⟩ := rest.changes.extends found
    have onward := ih layered hr
    cases departure with
    | pick found' role selected =>
      rw [found, Option.some.injEq] at found'
      subst found'
      have below := Tree.mem_of_select selected found
      exact .pick ha (kept.expanded expanded) (by rw [kept.role, role]; rfl)
        (by rw [kept.children expanded]; exact below) onward
  | act arrival departure rest ih =>
    have layered := (departure.changes arrival).layered layered
    obtain ⟨node, found, expanded⟩ := departure.opened arrival
    have grown := rest.changes.extends
    obtain ⟨after, ha, kept⟩ := grown found
    have onward := ih layered hr
    cases departure with
    | act found' role earned draw =>
      rw [found, Option.some.injEq] at found'
      subst found'
      obtain ⟨fair, below, -⟩ := Tree.draw_eq_ok draw found
      exact .act ha (kept.expanded expanded) (kept.role.trans role) (grown.earned earned)
        (fair.extends grown found expanded) (by rw [kept.children expanded]; exact below) onward

/-- Where a descent leaves, only the node that it leaves is newly expanded. -/
theorem Departure.widens {result : Except (Failure α) (Move α)}
    (arrival : Arrival progress id (.ok ()) here)
    (departure : Departure rules bias (here.countVisit id) id result there) {other : Nat}
    {node : Node S α} (found : there.tree.nodes[other]? = some node)
    (expanded : node.expanded = true) : other = id ∨
      ∃ before, progress.tree.nodes[other]? = some before ∧ before.expanded = true := by
  rw [departure.same.1] at found
  obtain ⟨old, ho, rfl⟩ := Tree.modify_cases found
  refine arrival.widens ho ?_
  split at expanded
  · exact expanded
  · exact expanded

/-- A descent that came to its end has expanded only nodes on its way. -/
theorem Descends.widens {rest : Nat}
    (descent : Descends rules bias left id progress way last (.ok rest)) {other : Nat}
    {node : Node S α} (found : last.tree.nodes[other]? = some node)
    (expanded : node.expanded = true) : other ∈ way.map Prod.fst ∨
      ∃ before, progress.tree.nodes[other]? = some before ∧ before.expanded = true := by
  generalize hr : (.ok rest : Except (Failure α) Nat) = result at descent
  induction descent with
  | horizon => exact .inr ⟨node, found, expanded⟩
  | endless | refused | broken => cases hr
  | stop arrival departure =>
    rcases departure.widens arrival found expanded with rfl | before
    · exact .inl List.mem_cons_self
    · exact .inr before
  | pick arrival departure _ ih | act arrival departure _ ih =>
    rcases ih found hr with passed | ⟨before, hb, expanded⟩
    · exact .inl (List.mem_cons_of_mem _ passed)
    · rcases departure.widens arrival hb expanded with rfl | before
      · exact .inl List.mem_cons_self
      · exact .inr before

variable {start horizon : Nat} {rollout : Rollout α}

/-- A rollout that is made has taken a route through the tree it leaves, and
its path has what was earned from each node of the route on. -/
theorem Rolls.route (rolls : Rolls rules progress start horizon bias (.ok rollout) last)
    (layered : progress.tree.Layered) : ∃ way rest, last.tree.Route rules horizon start way rest ∧
      rollout.path = returnsOf way := by
  cases rolls with
  | idle nought =>
    rw [nought]
    exact ⟨[], 0, .horizon start, rfl⟩
  | @made _ last way rest some approach descent =>
    rw [← approach.same] at layered
    have learns := steps_backUp (Tree.Told fun (_ : σ) _ => True) last.tree way.reverse
    exact ⟨way, rest, (descent.route layered).extends learns.extends,
      (Tree.returns_backUp _ _).2⟩

/-- A rollout that is made has expanded only nodes on its path. -/
theorem Rolls.widens (rolls : Rolls rules progress start horizon bias (.ok rollout) last)
    {other : Nat} {node : Node S α} (found : last.tree.nodes[other]? = some node)
    (expanded : node.expanded = true) : other ∈ rollout.path.map Prod.fst ∨
      ∃ before, progress.tree.nodes[other]? = some before ∧ before.expanded = true := by
  cases rolls with
  | idle nought => exact .inr ⟨node, found, expanded⟩
  | made some approach descent =>
    obtain ⟨old, ho, alike⟩ := Tree.backUp_cases found
    rw [← approach.same, Tree.path_backUp]
    exact descent.widens ho (alike.expanded ▸ expanded)

end Progress

end HorizonUct
