import HorizonUct.Proofs.Rollout.Safety
import HorizonUct.Proofs.Rollout.Shape

/-!
# Where nothing is left open

In a table in which no state leaves a choice and every choice leads to one state
for sure, there is one course from each state, and a rollout takes it: whatever
the draws, the bias and the tree so far, it is made exactly if the course can be
followed, and earns what is earned on it. The course itself may still break off,
at a state that the table does not have or where an earning cannot be told.
-/

namespace HorizonUct

open Progress (Approach Arrival Departure Guards)

variable {υ α : Type} [Scalar α] {mdp : Mdp α} {reward : Nat → String → Except (Failure α) α}
variable {rules : Rules Nat α} {left state id rest : Nat} {total : α}

/-- A table in which every state has at most one choice, and that choice one
outcome, which has probability one. -/
def Mdp.Certain (mdp : Mdp α) : Prop :=
  ∀ (state : Nat) (choices : List (Choice α)), mdp.states[state]? = some choices →
    choices = [] ∨ ∃ label target, choices = [⟨label, [⟨Scalar.one, target⟩]⟩]

/-- What is earned on the course from a state with so many actions at most, added
up from its end as a rollout does it: every state adds nought to what its action
has earned. -/
inductive Mdp.Course (mdp : Mdp α) (reward : Nat → String → Except (Failure α) α) :
    Nat → Nat → α → Prop where
  /-- No action is left to take. -/
  | horizon (state : Nat) : Course mdp reward 0 state Scalar.zero
  /-- There is nothing to do. -/
  | deadlock {left state : Nat} (listed : mdp.states[state]? = some []) :
      Course mdp reward (left + 1) state (Scalar.zero + Scalar.zero)
  /-- The only choice is taken, and leads to its only outcome. -/
  | act {left state target : Nat} {label : String} {earned total : α}
      (only : mdp.states[state]? = some [⟨label, [⟨Scalar.one, target⟩]⟩])
      (told : reward state label = .ok earned) (onward : Course mdp reward left target total) :
      Course mdp reward (left + 1) state (total + earned + Scalar.zero)

/-- There is one course. -/
theorem Mdp.Course.unique (course : mdp.Course reward left state total) {other : α}
    (course' : mdp.Course reward left state other) : total = other := by
  induction course generalizing other with
  | horizon =>
    cases course'
    rfl
  | deadlock listed =>
    cases course' with
    | deadlock => rfl
    | act only =>
      rw [listed] at only
      cases only
  | act only told _ ih =>
    cases course' with
    | deadlock listed =>
      rw [only] at listed
      cases listed
    | act only' told' onward' =>
      rw [only] at only'
      cases only'
      rw [told] at told'
      cases told'
      rw [ih onward']

/-- If an action is left, the state itself adds nought in the end. -/
theorem Mdp.Course.eq_add_zero (course : mdp.Course reward left state total) (some : 0 < left) :
    ∃ before, total = before + Scalar.zero := by
  cases course with
  | horizon => omega
  | deadlock | act => exact ⟨_, rfl⟩

namespace Tree

variable {tree : Tree Nat α} {node : Node Nat α} {way : List (Nat × α)}

/-- A route through a tree that unrolls such a table is along the course from the
state of its first node; from an action it is what is left of one. -/
theorem Route.course (route : tree.Route rules left id way rest) (faithful : tree.Faithful mdp)
    (certain : mdp.Certain) (found : tree.nodes[id]? = some node)
    (owner : tree.stateOf id = .ok (some state)) :
    mdp.Course rules.reward left state
      (if node.role.isDecision ∨ left = 0 then totalOf way else totalOf way + Scalar.zero) := by
  have layered := faithful.layered
  induction route generalizing state node with
  | horizon id =>
    rw [if_pos (.inr rfl)]
    exact .horizon state
  | stop found' expanded role bare =>
    rw [found', Option.some.injEq] at found
    rw [← found, if_pos (.inl role)]
    obtain ⟨own, role⟩ := Role.eq_decision role
    rw [stateOf_decision found' role, Except.ok.injEq, Option.some.injEq] at owner
    exact .deadlock (faithful.deadlock found' (owner ▸ role) expanded bare)
  | pick found' expanded role below onward ih =>
    rw [found', Option.some.injEq] at found
    rw [← found, if_pos (.inl role)]
    obtain ⟨own, role'⟩ := Role.eq_decision role
    rw [stateOf_decision found' role', Except.ok.injEq, Option.some.injEq] at owner
    obtain ⟨entry, there, parent, -⟩ := layered.toLinked.child found' below
    have flips := layered.flips there parent found'
    have onward := ih there (layered.stateOf_below found' (owner ▸ role') below)
    rw [role] at flips
    rwa [flips, if_neg (by simp)] at onward
  | act found' expanded role earned fair below onward ih =>
    rw [found', Option.some.injEq] at found
    rw [← found, role, if_neg (by simp [Role.isDecision])]
    obtain ⟨own, owner', told⟩ := earned_eq_ok_iff.mp earned
    rw [owner, Except.ok.injEq, Option.some.injEq] at owner'
    subst owner'
    obtain ⟨choice, outcome, entry, ⟨⟨choices, listed, chosen⟩, member⟩, label, there, role'⟩ :=
      faithful.follows found' role owner below
    have onward := ih there (stateOf_decision there role')
    rw [role', if_pos (.inl rfl)] at onward
    rcases certain state choices listed with rfl | ⟨_, target, rfl⟩
    · cases chosen
    · cases List.mem_singleton.mp chosen
      cases List.mem_singleton.mp member
      cases label
      exact .act listed told onward

/-- A node from which the course of a table goes on with so many actions at most. -/
inductive OnCourse (mdp : Mdp α) (reward : Nat → String → Except (Failure α) α)
    (tree : Tree Nat α) : Nat → Nat → Prop where
  /-- It is a state. -/
  | state {left id state : Nat} {node : Node Nat α} {total : α}
      (found : tree.nodes[id]? = some node) (role : node.role = .decision state)
      (course : mdp.Course reward left state total) : OnCourse mdp reward tree left id
  /-- It is the only action of a state. -/
  | action {left id index state target : Nat} {label : String} {node : Node Nat α}
      {earned total : α} (found : tree.nodes[id]? = some node)
      (role : node.role = .chance index label) (owner : tree.stateOf id = .ok (some state))
      (only : mdp.states[state]? = some [⟨label, [⟨Scalar.one, target⟩]⟩])
      (told : reward state label = .ok earned) (onward : mdp.Course reward left target total) :
      OnCourse mdp reward tree (left + 1) id

/-- As a tree grows, courses go on from where they did. -/
theorem OnCourse.extends {new : Tree Nat α} (onCourse : tree.OnCourse mdp reward left id)
    (h : tree.Extends new) : new.OnCourse mdp reward left id := by
  cases onCourse with
  | state found role course =>
    obtain ⟨after, there, kept⟩ := h found
    exact .state there (kept.role.trans role) course
  | action found role owner only told onward =>
    obtain ⟨after, there, kept⟩ := h found
    exact .action there (kept.role.trans role) (h.stateOf owner) only told onward

/-- Where an action is left, the node belongs to a state of the table. -/
theorem OnCourse.inside (onCourse : tree.OnCourse mdp reward (left + 1) id) :
    ∃ state < mdp.states.size, tree.stateOf id = .ok (some state) := by
  cases onCourse with
  | state found role course =>
    refine ⟨_, ?_, stateOf_decision found role⟩
    cases course with
    | deadlock listed | act listed => exact (Array.getElem?_eq_some_iff.mp listed).1
  | action found role owner only => exact ⟨_, (Array.getElem?_eq_some_iff.mp only).1, owner⟩

/-- At a state there is a course from it. -/
theorem OnCourse.from_state (onCourse : tree.OnCourse mdp reward left id)
    (found : tree.nodes[id]? = some node) (role : node.role = .decision state) :
    ∃ total, mdp.Course reward left state total := by
  cases onCourse with
  | state found' role' course =>
    rw [found, Option.some.injEq] at found'
    rw [← found', role, Role.decision.injEq] at role'
    exact ⟨_, role' ▸ course⟩
  | action found' role' =>
    rw [found, Option.some.injEq] at found'
    rw [← found', role] at role'
    cases role'

/-- At an action there is a course from the only place it leads to. -/
theorem OnCourse.from_action {index : Nat} {label : String}
    (onCourse : tree.OnCourse mdp reward left id) (found : tree.nodes[id]? = some node)
    (role : node.role = .chance index label) : ∃ before state target earned total,
      left = before + 1 ∧ tree.stateOf id = .ok (some state) ∧
        mdp.states[state]? = some [⟨label, [⟨Scalar.one, target⟩]⟩] ∧
          reward state label = .ok earned ∧ mdp.Course reward before target total := by
  cases onCourse with
  | state found' role' =>
    rw [found, Option.some.injEq] at found'
    rw [← found', role] at role'
    cases role'
  | action found' role' owner only told onward =>
    rw [found, Option.some.injEq] at found'
    rw [← found', role, Role.chance.injEq] at role'
    obtain ⟨-, rfl⟩ := role'
    exact ⟨_, _, _, _, _, rfl, owner, only, told, onward⟩

/-- From a state the course goes on to its only action. -/
theorem OnCourse.pick {child : Nat} (onCourse : tree.OnCourse mdp reward (left + 1) id)
    (faithful : tree.Faithful mdp) (found : tree.nodes[id]? = some node)
    (role : node.role = .decision state) (below : child ∈ node.children) :
    tree.OnCourse mdp reward (left + 1) child := by
  have layered := faithful.layered
  obtain ⟨total, course⟩ := onCourse.from_state found role
  obtain ⟨entry, there, parent, -⟩ := layered.toLinked.child found below
  have flips := layered.flips there parent found
  rw [role] at flips
  obtain ⟨index, label, chance⟩ := Role.eq_chance flips
  have owner := layered.stateOf_below found role below
  obtain ⟨choices, choice, listed, placed, rfl⟩ := faithful.listed there chance owner
  have chosen := List.mem_of_getElem? placed
  cases course with
  | deadlock none =>
    rw [listed, Option.some.injEq] at none
    rw [none] at chosen
    cases chosen
  | act only told onward =>
    rw [listed, Option.some.injEq] at only
    rw [only] at chosen
    cases List.mem_singleton.mp chosen
    exact .action there chance owner (only ▸ listed) told onward

/-- From an action it goes on to its only outcome. -/
theorem OnCourse.act {index child : Nat} {label : String}
    (onCourse : tree.OnCourse mdp reward (left + 1) id) (faithful : tree.Faithful mdp)
    (found : tree.nodes[id]? = some node) (role : node.role = .chance index label)
    (below : child ∈ node.children) : tree.OnCourse mdp reward left child := by
  obtain ⟨before, state, target, earned, total, same, owner, only, told, onward⟩ :=
    onCourse.from_action found role
  obtain rfl := Nat.succ.inj same
  obtain ⟨choice, outcome, entry, ⟨⟨choices, listed, chosen⟩, member⟩, -, there, decision⟩ :=
    faithful.follows found role owner below
  rw [listed, Option.some.injEq] at only
  rw [only] at chosen
  cases List.mem_singleton.mp chosen
  cases List.mem_singleton.mp member
  exact .state there decision onward

/-- What the action has earned can be told. -/
theorem OnCourse.earns {index : Nat} {label : String}
    (onCourse : tree.OnCourse mdp rules.reward left id)
    (found : tree.nodes[id]? = some node) (role : node.role = .chance index label) :
    ∃ earned, tree.earned rules id label = .ok earned := by
  obtain ⟨before, state, target, earned, total, -, owner, -, told, -⟩ :=
    onCourse.from_action found role
  exact ⟨earned, earned_eq_ok_iff.mpr ⟨state, owner, told⟩⟩

/-- Its only outcome can be drawn, if probability one makes a distribution. -/
theorem Faithful.draws [DrawSource υ α] (faithful : tree.Faithful mdp) (certain : mdp.Certain)
    {tolerance : α} (sure : isDistribution tolerance [(Scalar.one : α)] = true)
    (found : tree.nodes[id]? = some node) (expanded : node.expanded = true) {index : Nat}
    {label : String} (role : node.role = .chance index label) (source : υ) :
    ∃ drawn, tree.draw id tolerance source = .ok drawn := by
  cases undrawn : tree.draw id tolerance source with
  | ok drawn => exact ⟨drawn, rfl⟩
  | error failure =>
    -- what actions earn does not matter here, so let it be nought
    have blames : mdp.Blames ⟨fun _ _ => .ok Scalar.zero, tolerance⟩ failure :=
      faithful.unfair found expanded role undrawn
    cases blames with
    | unpaid _ untold => cases untold
    | @unfair state choice _ offered refused =>
      obtain ⟨choices, listed, chosen⟩ := offered
      rcases certain state choices listed with rfl | ⟨_, _, rfl⟩
      · cases chosen
      · cases List.mem_singleton.mp chosen
        rcases refused with none | unfair
        · cases none
        · exact absurd (sure.symm.trans unfair) (by decide)

end Tree

/-- A descent that is on the course of such a table does not break off. -/
theorem Mdp.Certain.guards [DrawSource υ α] (certain : mdp.Certain)
    (sure : isDistribution rules.tolerance [(Scalar.one : α)] = true) (bias : α) :
    Guards (υ := υ) mdp rules bias
      (fun left id progress => progress.tree.OnCourse mdp rules.reward left id)
      fun _ => False := by
  refine ⟨fun sound here arrival => ?_, fun {_ id _ now _ _} sound here arrival departure => ?_,
    fun sound here arrival departure goes => ?_⟩
  · obtain ⟨state, inside, owner⟩ := here.inside
    exact sound.arrives_inside owner inside arrival
  · obtain ⟨steps, -⟩ := departure.steps (Cursor.tracks mdp) sound.table sound.ready arrival
    have faithful := (sound.settled.steps steps).toFaithful
    have here := here.extends steps.extends
    obtain ⟨node, found, expanded⟩ := departure.opened arrival
    rw [departure.same.1] at faithful found here
    cases departure with
    | lost missing => exact Tree.node_ne_error found missing
    | unselected _ _ unselected =>
      obtain ⟨pick, selected⟩ := faithful.layered.toLinked.select found bias
      rw [selected] at unselected
      cases unselected
    | unearned found' role untold =>
      obtain ⟨earned, told⟩ := here.earns found' role
      rw [told] at untold
      cases untold
    | undrawn found' role _ undrawn =>
      rw [found, Option.some.injEq] at found'
      obtain ⟨drawn, draw⟩ :=
        faithful.draws certain sure found expanded (found' ▸ role) (now.countVisit id).source
      rw [draw] at undrawn
      cases undrawn
  · obtain ⟨steps, -⟩ := departure.steps (Cursor.tracks mdp) sound.table sound.ready arrival
    have faithful := (sound.settled.steps steps).toFaithful
    have here := here.extends steps.extends
    rw [departure.same.1] at faithful here ⊢
    cases departure with
    | stop => cases goes
    | pick found role selected =>
      cases goes
      exact here.pick faithful found role (Tree.mem_of_select selected found)
    | act found role earned draw =>
      cases goes
      exact here.act faithful found role (Tree.draw_eq_ok draw found).2.1

/-- A rollout from the root that can be retraced earns what is earned on the course. -/
theorem Tree.Retraces.course {tree : Tree Nat α} {rollout : Rollout α} {horizon root : Nat}
    (retraces : tree.Retraces rules horizon 0 rollout) (faithful : tree.Faithful mdp)
    (certain : mdp.Certain) (planted : tree.root.role = .decision root) :
    mdp.Course rules.reward horizon root rollout.total := by
  obtain ⟨way, rest, route, -, total, -⟩ := retraces
  have found := Tree.getElem?_root tree
  have course := route.course faithful certain found (Tree.stateOf_decision found planted)
  rw [planted, if_pos (.inl rfl)] at course
  rwa [total]

namespace Progress

/-- What a search has come to over a table that leaves nothing open, in a tree
that unrolls it from a state. -/
structure Certain (mdp : Mdp α) (rules : Rules Nat α) (root : Nat)
    (progress : Progress (Cursor α) υ Nat α) : Prop where
  /-- The table leaves nothing open. -/
  certain : mdp.Certain
  /-- Probability one makes a distribution. -/
  sure : isDistribution rules.tolerance [(Scalar.one : α)] = true
  /-- The tree unrolls it. -/
  faithful : progress.tree.Faithful mdp
  /-- The root stands for the state. -/
  planted : progress.tree.root.role = .decision root
  /-- The cursor is one of the table. -/
  table : progress.navigator.mdp = mdp

variable {progress : Progress (Cursor α) υ Nat α} {horizon root : Nat} {bias : α}

/-- So it is in every tree that was grown from the state over such a table. -/
theorem Certain.of_grown {outcomes : List (Except (Failure α) (Rollout α))}
    (grown : progress.tree.Grown (fun cursor : Cursor α => cursor.mdp = mdp) root outcomes)
    (certain : mdp.Certain) (sure : isDistribution rules.tolerance [(Scalar.one : α)] = true)
    (table : progress.navigator.mdp = mdp) : progress.Certain mdp rules root :=
  ⟨certain, sure, grown.faithful, grown.role_root (Cursor.tracks mdp), table⟩

variable [DrawSource υ α]

/-- A rollout from the root that is made has taken the course. -/
theorem Certain.course (certain : progress.Certain mdp rules root) {rollout : Rollout α}
    (made : (progress.rollout rules 0 horizon bias).1 = .ok rollout) :
    mdp.Course rules.reward horizon root rollout.total := by
  have rolls := progress.rolls_rollout rules 0 horizon bias
  rw [made] at rolls
  have layered := certain.faithful.layered
  obtain ⟨steps, -⟩ := rolls.steps (Cursor.tracks mdp) layered certain.table
  have faithful := steps.preserve Tree.Step.faithful certain.faithful
  have planted := steps.extends.role_root.trans certain.planted
  exact (rolls.retraces layered).course faithful certain.certain planted

/-- If the course can be followed, a rollout from the root is made. -/
theorem Certain.made (certain : progress.Certain mdp rules root) (bias : α)
    (course : mdp.Course rules.reward horizon root total) :
    ∃ rollout, (progress.rollout rules 0 horizon bias).1 = .ok rollout := by
  cases ended : (progress.rollout rules 0 horizon bias).1 with
  | ok rollout => exact ⟨rollout, rfl⟩
  | error failure =>
    cases horizon with
    | zero =>
      rw [Progress.rollout, if_pos rfl] at ended
      cases ended
    | succ horizon =>
      have found := Tree.getElem?_root progress.tree
      have here : progress.tree.OnCourse mdp rules.reward (horizon + 1) 0 :=
        .state found certain.planted course
      obtain ⟨state, inside, owner⟩ := here.inside
      rw [Tree.stateOf_decision found certain.planted, Except.ok.injEq, Option.some.injEq] at owner
      have settled : progress.tree.Settled mdp :=
        ⟨certain.faithful, root, owner ▸ inside, certain.planted⟩
      have decides : progress.tree.root.role.isDecision = true := by rw [certain.planted]; rfl
      refine ((certain.certain.guards certain.sure bias).rollout (fun approach => ?_) ended).elim
      -- the root is a state, so nothing has to be done to start there
      have ready := approach.ready (Cursor.tracks mdp) certain.table
      cases approach with
      | decision =>
        exact ⟨rfl, ⟨settled, certain.table, ready.2.2 rfl, _, found⟩, here⟩
      | lost missing => exact (Tree.node_ne_error found missing).elim
      | astray found' role | stateless found' role | moved found' role =>
        rw [found, Option.some.injEq] at found'
        rw [← found', decides] at role
        cases role

end Progress

end HorizonUct
