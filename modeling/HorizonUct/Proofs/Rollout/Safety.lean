import HorizonUct.Proofs.Rollout.Whereabouts

/-!
# What may go wrong over a closed table

A rollout over a closed table fails in two ways only: the outcomes of a choice
make no distribution, or what a choice earns cannot be told. Every state that
the cursor is sent to is there, every choice and outcome that it is asked about
is listed, every index that a node names is in the tree, and the moves do not
run out. For this the tree has to be faithful, and its root to be there; both
stay so when a rollout breaks off.
-/

namespace HorizonUct

open Progress (Arrival Departure)

variable {υ α : Type} {mdp : Mdp α}

/-- What may be wrong with a closed table and its rewards. -/
inductive Mdp.Blames [Scalar α] (mdp : Mdp α) (rules : Rules Nat α) : Failure α → Prop where
  /-- The outcomes of a choice make no distribution, or there are none. -/
  | unfair {state : Nat} {choice : Choice α} (node : Nat) (offered : mdp.Offers state choice)
      (refused : choice.outcomes.map Outcome.probability = [] ∨
        isDistribution rules.tolerance (choice.outcomes.map Outcome.probability) = false) :
      Blames mdp rules
        (.notADistribution node (Scalar.total (choice.outcomes.map Outcome.probability)))
  /-- What a choice earns cannot be told. -/
  | unpaid {state : Nat} {choice : Choice α} {failure : Failure α}
      (offered : mdp.Offers state choice)
      (untold : rules.reward state choice.action = .error failure) : Blames mdp rules failure

/-- A cursor gets to every state of its table. -/
theorem Cursor.reaches {cursor moved : Cursor α} {state : Nat} {result : Except (Failure α) Unit}
    (own : cursor.mdp = mdp) (inside : state < mdp.states.size)
    (move : Navigator.moveTo state cursor = (result, moved)) : result = .ok () := by
  rw [← own] at inside
  rw [← Cursor.moveTo_eq_ok_iff.mpr inside]
  exact (congrArg Prod.fst move).symm

namespace Tree

variable {old new tree : Tree Nat α} {id : Nat} {node : Node Nat α} {state : Nat}

/-- Looking a node up that is there does not fail. -/
theorem node_ne_error (found : tree.nodes[id]? = some node) {failure : Failure α} :
    tree.node id ≠ .error failure := by
  rw [node_eq_ok_iff.mpr found]
  nofun

/-- A faithful tree whose root stands for a state of the table. -/
structure Settled (mdp : Mdp α) (tree : Tree Nat α) : Prop extends Faithful mdp tree where
  /-- The state of the root is there. -/
  settled : ∃ root < mdp.states.size, tree.root.role = .decision root

/-- Every node of a settled tree belongs to a state of the closed table. -/
theorem Settled.belongs (settled : tree.Settled mdp) (closed : mdp.Closed)
    (found : tree.nodes[id]? = some node) :
    ∃ state < mdp.states.size, tree.stateOf id = .ok (some state) := by
  obtain ⟨root, here, planted⟩ := settled.settled
  cases hr : node.role with
  | decision state =>
    exact ⟨state, settled.inside closed planted here found hr, stateOf_decision found hr⟩
  | chance index label =>
    obtain ⟨up, parent, own, hp, hu, hs, owner⟩ :=
      settled.layered.stateOf_chance found (by rw [hr]; rfl)
    exact ⟨own, settled.inside closed planted here hu hs, owner⟩

variable [Scalar α]

/-- A state of the table alone is settled. -/
theorem settled_ofRoot (here : state < mdp.states.size) :
    (ofRoot state : Tree Nat α).Settled mdp :=
  ⟨faithful_ofRoot mdp state, state, here, rfl⟩

/-- Steps of growing keep a tree settled. -/
theorem Settled.steps (settled : old.Settled mdp)
    (steps : Steps (Told (Cursor.StandsOn mdp)) old new) : new.Settled mdp := by
  obtain ⟨state, here, planted⟩ := settled.settled
  exact ⟨steps.preserve Step.faithful settled.toFaithful, state, here,
    steps.extends.role_root.trans planted⟩

/-- A tree that was grown over a table from one of its states is settled. -/
theorem Grown.settled {outcomes : List (Except (Failure α) (Rollout α))}
    (grown : Grown (fun cursor : Cursor α => cursor.mdp = mdp) state outcomes tree)
    (here : state < mdp.states.size) : tree.Settled mdp :=
  (settled_ofRoot here).steps (grown.steps (Cursor.tracks mdp))

/-- A cursor that stands on the state of a node can tell its children. -/
theorem Faithful.told (faithful : tree.Faithful mdp) (found : tree.nodes[id]? = some node)
    (owner : tree.stateOf id = .ok (some state)) {cursor : Cursor α}
    (stands : Cursor.StandsOn mdp cursor state) :
    ∃ children, node.role.offspring cursor = .ok children := by
  obtain ⟨choices, listed, all⟩ := stands.choices
  cases hr : node.role with
  | decision own => exact ⟨_, Cursor.offspring_decision all own⟩
  | chance index label =>
    obtain ⟨choices', choice, listed', placed, -⟩ := faithful.listed found hr owner
    rw [listed, Option.some.injEq] at listed'
    rw [← listed'] at placed
    exact ⟨_, Cursor.offspring_chance ((Cursor.choice_eq_ok_iff all).mpr placed) label⟩

/-- What an action of a faithful tree earns is told unless a choice is unpaid. -/
theorem Faithful.unpaid (faithful : tree.Faithful mdp) {rules : Rules Nat α}
    (found : tree.nodes[id]? = some node) {index : Nat} {label : String}
    (role : node.role = .chance index label) {failure : Failure α}
    (untold : tree.earned rules id label = .error failure) : mdp.Blames rules failure := by
  obtain ⟨-, -, state, -, -, -, owner⟩ :=
    faithful.layered.stateOf_chance found (by rw [role]; rfl)
  obtain ⟨choices, choice, listed, placed, rfl⟩ := faithful.listed found role owner
  rw [earned, owner] at untold
  exact .unpaid ⟨choices, listed, List.mem_of_getElem? placed⟩ untold

/-- An outcome of an expanded action is drawn unless a choice is unfair. -/
theorem Faithful.unfair [DrawSource υ α] (faithful : tree.Faithful mdp) {rules : Rules Nat α}
    (found : tree.nodes[id]? = some node) (expanded : node.expanded = true) {index : Nat}
    {label : String} (role : node.role = .chance index label) {source : υ} {failure : Failure α}
    (undrawn : tree.draw id rules.tolerance source = .error failure) :
    mdp.Blames rules failure := by
  obtain ⟨-, -, state, -, -, -, owner⟩ :=
    faithful.layered.stateOf_chance found (by rw [role]; rfl)
  obtain ⟨children, looked⟩ := faithful.layered.toLinked.children found
  obtain ⟨choice, offered, reaches⟩ := faithful.probabilities found expanded role owner looked
  have probabilities : children.map (fun entry => entry.2.reach.getD Scalar.zero) =
      choice.outcomes.map Outcome.probability := by
    have given := congrArg (List.map fun reach : Option α => reach.getD Scalar.zero) reaches
    rw [List.map_map, List.map_map] at given
    exact given
  obtain ⟨rfl, refused⟩ := draw_eq_error looked probabilities undrawn
  exact .unfair id offered refused

end Tree

namespace Progress

/-- A descent over a table that can go on from a node. -/
structure Sound (mdp : Mdp α) (id : Nat) (progress : Progress (Cursor α) υ Nat α) : Prop where
  /-- The tree unrolls the table from a state that is there. -/
  settled : progress.tree.Settled mdp
  /-- The cursor is one of the table. -/
  table : progress.navigator.mdp = mdp
  /-- It stands where the action of the node is taken, if it is one. -/
  ready : progress.Ready (Cursor.StandsOn mdp) id
  /-- The node is there. -/
  found : ∃ node, progress.tree.nodes[id]? = some node

variable {progress here there last : Progress (Cursor α) υ Nat α} {id : Nat}

/-- Over a closed table a rollout can start at any node of a settled tree. -/
theorem Approach.sound (closed : mdp.Closed) (settled : progress.tree.Settled mdp)
    (table : progress.navigator.mdp = mdp) {node : Node Nat α}
    (found : progress.tree.nodes[id]? = some node) {result : Except (Failure α) Unit}
    (approach : Approach progress id result last) : result = .ok () ∧ last.Sound mdp id := by
  obtain ⟨state, inside, owner⟩ := settled.belongs closed found
  have starts : result = .ok () := by
    cases approach with
    | lost missing => exact (Tree.node_ne_error found missing).elim
    | decision => rfl
    | astray _ _ owner' | stateless _ _ owner' =>
      rw [owner] at owner'
      cases owner'
    | moved _ _ owner' move =>
      rw [owner, Except.ok.injEq, Option.some.injEq] at owner'
      exact Cursor.reaches table (owner' ▸ inside) move
  have ready := approach.ready (Cursor.tracks mdp) table
  have same := ready.1
  exact ⟨starts, by rw [same]; exact settled, ready.2.1, ready.2.2 starts, node,
    by rw [same]; exact found⟩

variable [Scalar α]

/-- A descent arrives at a node if the state which it belongs to is there. -/
theorem Sound.arrives_inside (sound : progress.Sound mdp id) {state : Nat}
    (owner : progress.tree.stateOf id = .ok (some state)) (inside : state < mdp.states.size)
    {result : Except (Failure α) Unit} (arrival : Arrival progress id result last) :
    result = .ok () := by
  cases arrival with
  | lost missing =>
    obtain ⟨node, found⟩ := sound.found
    exact (Tree.node_ne_error found missing).elim
  | barred found role moved =>
    rw [Tree.stateOf_decision found role, Except.ok.injEq, Option.some.injEq] at owner
    exact Cursor.reaches sound.table (owner ▸ inside) moved
  | silent found stands bare asked =>
    obtain ⟨-, state, owner, stands⟩ :=
      sound.ready.stands (Cursor.tracks mdp) sound.table found stands
    obtain ⟨children, told⟩ := sound.settled.told found owner stands
    rw [asked] at told
    cases told
  | known => rfl
  | opened => rfl

/-- Over a closed table a descent arrives wherever it goes. -/
theorem Sound.arrives (sound : progress.Sound mdp id) (closed : mdp.Closed)
    {result : Except (Failure α) Unit} (arrival : Arrival progress id result last) :
    result = .ok () := by
  obtain ⟨node, found⟩ := sound.found
  obtain ⟨state, inside, owner⟩ := sound.settled.belongs closed found
  exact sound.arrives_inside owner inside arrival

variable [DrawSource υ α] {rules : Rules Nat α} {bias : α}

/-- A descent leaves a node unless a choice is unfair or unpaid. -/
theorem Sound.blames (sound : progress.Sound mdp id) (arrival : Arrival progress id (.ok ()) here)
    {failure : Failure α} (departure : Departure rules bias (here.countVisit id) id
      (.error failure) last) : mdp.Blames rules failure := by
  obtain ⟨steps, -⟩ := departure.steps (Cursor.tracks mdp) sound.table sound.ready arrival
  have faithful := (sound.settled.steps steps).toFaithful
  obtain ⟨node, found, expanded⟩ := departure.opened arrival
  rw [departure.same.1] at faithful found
  cases departure with
  | lost missing => exact (Tree.node_ne_error found missing).elim
  | unselected _ _ unselected =>
    obtain ⟨pick, selected⟩ := faithful.layered.toLinked.select found bias
    rw [selected] at unselected
    cases unselected
  | unearned found role untold => exact faithful.unpaid found role untold
  | undrawn found' role _ undrawn =>
    rw [found, Option.some.injEq] at found'
    exact faithful.unfair found expanded (found' ▸ role) undrawn

/-- A descent is sound at the next node too. -/
theorem Sound.onward (sound : progress.Sound mdp id) (arrival : Arrival progress id (.ok ()) here)
    {move : Move α} {child : Nat}
    (departure : Departure rules bias (here.countVisit id) id (.ok move) there)
    (goes : move.next? = some child) : there.Sound mdp child := by
  obtain ⟨steps, table, state, owner, stands⟩ :=
    departure.steps (Cursor.tracks mdp) sound.table sound.ready arrival
  have settled := sound.settled.steps steps
  obtain ⟨node, found, below⟩ := departure.below goes
  rw [← departure.same.1] at found
  obtain ⟨entry, there, -⟩ := settled.layered.toLinked.child found below
  exact ⟨settled, table, departure.ready settled.layered owner stands goes, entry, there⟩

/-- The moves that are left are enough for the actions that are left: two for
each, or one less if the next node is an action. -/
def Affords (progress : Progress (Cursor α) υ Nat α) (bound left id : Nat) : Prop :=
  ∀ {node : Node Nat α}, progress.tree.nodes[id]? = some node →
    2 * left ≤ bound + if node.role.isDecision then 0 else 1

/-- At the next node one move less is enough for the actions that are left there. -/
theorem Affords.onward {bound left : Nat} (affords : progress.Affords (bound + 1) (left + 1) id)
    (sound : progress.Sound mdp id) (arrival : Arrival progress id (.ok ()) here)
    {move : Move α} {child : Nat}
    (departure : Departure rules bias (here.countVisit id) id (.ok move) there)
    (goes : move.next? = some child) : there.Affords bound (move.left (left + 1)) child := by
  obtain ⟨before, found⟩ := sound.found
  have enough := affords found
  have changes := departure.changes arrival
  have layered := changes.layered sound.settled.layered
  obtain ⟨after, now, kept⟩ := changes.extends found
  obtain ⟨node, now', below⟩ := departure.below goes
  rw [← departure.same.1, now, Option.some.injEq] at now'
  subst now'
  intro entry there
  obtain ⟨entry', there', parent, -⟩ := layered.toLinked.child now below
  rw [there, Option.some.injEq] at there'
  subst there'
  have flips := layered.flips there parent now
  rw [kept.role] at flips
  cases departure with
  | stop => cases goes
  | pick now' role selected =>
    rw [now, Option.some.injEq] at now'
    rw [← now', kept.role] at role
    rw [role, Role.isDecision, if_pos rfl] at enough
    rw [flips, role, Role.isDecision, Bool.not_true, if_neg Bool.false_ne_true, Move.left]
    · omega
    · nofun
  | act now' role earned draw =>
    rw [now, Option.some.injEq] at now'
    rw [← now', kept.role] at role
    rw [role, Role.isDecision, if_neg Bool.false_ne_true] at enough
    rw [flips, role, Role.isDecision, Bool.not_false, if_pos rfl, Move.left]
    omega

/-- What stays true wherever a sound descent goes, makes it arrive there, and lets
it fail to leave only in ways that are allowed. -/
structure Guards (mdp : Mdp α) (rules : Rules Nat α) (bias : α)
    (stays : Nat → Nat → Progress (Cursor α) υ Nat α → Prop) (allowed : Failure α → Prop) :
    Prop where
  /-- The descent arrives. -/
  arrives : ∀ {left id : Nat} {progress last : Progress (Cursor α) υ Nat α}
    {result : Except (Failure α) Unit}, progress.Sound mdp id → stays (left + 1) id progress →
      Arrival progress id result last → result = .ok ()
  /-- If it does not leave, this is allowed. -/
  leaves : ∀ {left id : Nat} {progress here last : Progress (Cursor α) υ Nat α}
    {failure : Failure α}, progress.Sound mdp id → stays (left + 1) id progress →
      Arrival progress id (.ok ()) here →
        Departure rules bias (here.countVisit id) id (.error failure) last → allowed failure
  /-- What is to stay true does so at the next node. -/
  onward : ∀ {left id child : Nat} {progress here there : Progress (Cursor α) υ Nat α}
    {move : Move α}, progress.Sound mdp id → stays (left + 1) id progress →
      Arrival progress id (.ok ()) here →
        Departure rules bias (here.countVisit id) id (.ok move) there →
          move.next? = some child → stays (move.left (left + 1)) child there

/-- A guarded descent ends unless it breaks off in a way that is allowed. -/
theorem Guards.descend {stays : Nat → Nat → Progress (Cursor α) υ Nat α → Prop}
    {allowed : Failure α → Prop} (guards : Guards mdp rules bias stays allowed) {bound left : Nat}
    (trail : List (Nat × α)) (sound : progress.Sound mdp id)
    (affords : progress.Affords bound left id) (here : stays left id progress)
    {failure : Failure α}
    (broken : (Progress.descend rules bias bound left id trail progress).result = .error failure) :
    allowed failure := by
  -- on the moves that are left; what carries it is that they never run out
  induction bound generalizing left id trail progress with
  | zero =>
    cases left with
    | zero =>
      rw [Progress.descend] at broken
      cases broken
    | succ left =>
      obtain ⟨node, found⟩ := sound.found
      have enough := affords found
      split at enough <;> omega
  | succ bound ih =>
    cases left with
    | zero =>
      rw [Progress.descend] at broken
      cases broken
    | succ left =>
      have arrival := arrival_arrive progress id
      rw [Progress.descend] at broken
      generalize progress.arrive id = arrives at arrival broken
      obtain ⟨result, now⟩ := arrives
      obtain rfl := guards.arrives sound here arrival
      have departure := departure_depart rules bias (now.countVisit id) id
      dsimp only at arrival broken
      generalize (now.countVisit id).depart rules bias id = departs at departure broken
      obtain ⟨untold | move, there⟩ := departs
      · cases broken
        exact guards.leaves sound here arrival departure
      · cases move with
        | stop => cases broken
        | pick child | act reward child =>
          exact ih _ (sound.onward arrival departure rfl)
            (affords.onward sound arrival departure rfl)
            (guards.onward sound here arrival departure rfl) broken

/-- A rollout whose descent is guarded is made unless it breaks off in a way that
is allowed. -/
theorem Guards.rollout {stays : Nat → Nat → Progress (Cursor α) υ Nat α → Prop}
    {allowed : Failure α → Prop} (guards : Guards mdp rules bias stays allowed)
    {start horizon : Nat}
    (starts : ∀ {result : Except (Failure α) Unit} {ready : Progress (Cursor α) υ Nat α},
      Approach progress start result ready →
        result = .ok () ∧ ready.Sound mdp start ∧ stays horizon start ready) {failure : Failure α}
    (broken : (progress.rollout rules start horizon bias).1 = .error failure) :
    allowed failure := by
  rw [Progress.rollout] at broken
  split at broken
  · cases broken
  · have approach := approach_approach progress start
    generalize progress.approach start = approaches at approach broken
    obtain ⟨result, ready⟩ := approaches
    obtain ⟨rfl, sound, here⟩ := starts approach
    have affords : ready.Affords (ready.tree.moveBound horizon) horizon start := by
      intro entry _
      rw [Tree.moveBound]
      omega
    dsimp only at broken
    generalize ends : Progress.descend rules bias (ready.tree.moveBound horizon) horizon start []
      ready = descent at broken
    obtain ⟨last, trail, failure' | left⟩ := descent
    · cases broken
      exact guards.descend [] sound affords here (congrArg Descent.result ends)
    · cases broken

/-- Over a closed table nothing more is needed for a descent to end unless a choice
is unfair or unpaid. -/
theorem guards_of_closed (closed : mdp.Closed) (rules : Rules Nat α) (bias : α) :
    Guards (υ := υ) mdp rules bias (fun _ _ _ => True) (mdp.Blames rules) :=
  ⟨fun sound _ arrival => sound.arrives closed arrival,
    fun sound _ arrival departure => sound.blames arrival departure,
    fun _ _ _ _ _ => trivial⟩

/-- Over a closed table a rollout from any node of a settled tree is made unless
a choice is unfair or unpaid. -/
theorem rollout_blames (closed : mdp.Closed) (settled : progress.tree.Settled mdp)
    (table : progress.navigator.mdp = mdp) {start : Nat} (there : start < progress.tree.size)
    (horizon : Nat) {failure : Failure α}
    (broken : (progress.rollout rules start horizon bias).1 = .error failure) :
    mdp.Blames rules failure := by
  obtain ⟨node, found⟩ := Tree.exists_of_lt there
  refine (guards_of_closed closed rules bias).rollout (fun approach => ?_) broken
  obtain ⟨starts, sound⟩ := Approach.sound closed settled table found approach
  exact ⟨starts, sound, trivial⟩

end Progress

section Trail

variable {σ S : Type} [Navigator σ S α] [Scalar α] [DrawSource υ α]

/-- The descent of a rollout that starts at a node. -/
def Progress.descent (rules : Rules S α) (progress : Progress σ υ S α) (start horizon : Nat)
    (bias : α) : Descent σ υ S α :=
  let ready := (progress.approach start).2
  descend rules bias (ready.tree.moveBound horizon) horizon start [] ready

/-- The nodes that a descent counts visits at, and that are changed again when it
has ended or broken off, are in the tree. -/
theorem Progress.lt_size_of_descent (progress : Progress σ υ S α) (rules : Rules S α)
    (start horizon : Nat) (bias : α) :
    ∀ entry ∈ (progress.descent rules start horizon bias).trail,
      entry.1 < (progress.descent rules start horizon bias).progress.tree.size := by
  obtain ⟨way, trail, descends⟩ := descends_descend rules bias
    ((progress.approach start).2.tree.moveBound horizon) horizon start []
    (progress.approach start).2
  rw [List.append_nil] at trail
  intro entry passed
  rw [descent, trail, List.mem_reverse] at passed
  obtain ⟨node, found, -⟩ := descends.opened entry.1 (List.mem_map_of_mem passed)
  exact Tree.lt_size found

end Trail

end HorizonUct
