import HorizonUct.Proofs.Rollout.Course

/-!
# How rollouts grow a tree

A rollout changes its tree in the steps of growing only, whether it is made or
breaks off. Whenever it makes the children of a node, the navigator stands in
the state that the node belongs to: at a state it has just been moved there,
and at an action it has been left where the state above was met, or was sent
there before the start. What it means to stand in a state is a parameter, of
which no more is asked than that moves which succeed lead there.
-/

namespace HorizonUct

/-- Moves lead to the state that they are told, among navigators of one kind. -/
structure Tracks {σ S α : Type} [Navigator σ S α] (kind : σ → Prop)
    (at_ : σ → S → Prop) : Prop where
  /-- A move makes no other kind of navigator. -/
  stays : ∀ {state : S} {before after : σ} {result : Except (Failure α) Unit}, kind before →
    Navigator.moveTo state before = (result, after) → kind after
  /-- A move that succeeds leads to its state. -/
  reaches : ∀ {state : S} {before after : σ}, kind before →
    Navigator.moveTo state before = (.ok (), after) → at_ after state

/-- Of moves in general nothing is known. -/
theorem tracks_any {σ S α : Type} [Navigator σ S α] :
    Tracks (fun _ : σ => True) (fun _ _ => True) :=
  ⟨fun _ _ => trivial, fun _ _ => trivial⟩

/-- The children that a node may adopt: what its role asks for, told by a
navigator that stands in the state which the node belongs to. -/
def Tree.Told {σ S α : Type} [Navigator σ S α] [Scalar α] (at_ : σ → S → Prop)
    (tree : Tree S α) (id : Nat) (children : List (Node S α)) : Prop :=
  ∃ (navigator : σ) (node : Node S α) (state : S), at_ navigator state ∧
    tree.nodes[id]? = some node ∧ tree.stateOf id = .ok (some state) ∧
      node.role.offspring navigator = .ok children

/-- The node that a move leads to. -/
def Move.next? {α : Type} : Move α → Option Nat
  | .stop => none
  | .pick child => some child
  | .act _ child => some child

/-- How many actions are left after a move. -/
def Move.left {α : Type} (before : Nat) : Move α → Nat
  | .act _ _ => before - 1
  | _ => before

namespace Progress

variable {σ υ S α : Type} {kind : σ → Prop} {at_ : σ → S → Prop}
variable {progress here there last : Progress σ υ S α} {id : Nat}

/-- The navigator is where an action is taken, if the node is one. -/
def Ready (at_ : σ → S → Prop) (progress : Progress σ υ S α) (id : Nat) : Prop :=
  ∀ node : Node S α, progress.tree.nodes[id]? = some node → node.role.isDecision = false →
    ∃ state, progress.tree.stateOf id = .ok (some state) ∧ at_ progress.navigator state

/-- Below a node whose state the navigator stands in, it is ready for any child. -/
theorem Ready.below (layered : progress.tree.Layered) {node : Node S α} {child : Nat} {state : S}
    (found : progress.tree.nodes[id]? = some node) (below : child ∈ node.children)
    (owner : progress.tree.stateOf id = .ok (some state)) (stands : at_ progress.navigator state) :
    progress.Ready at_ child := by
  intro entry he hr
  obtain ⟨entry', he', hp, -⟩ := layered.toLinked.child found below
  rw [he, Option.some.injEq] at he'
  subst he'
  have hflip := layered.flips he hp found
  rw [hr, eq_comm, Bool.not_eq_false'] at hflip
  obtain ⟨own, hown⟩ := Role.eq_decision hflip
  have hsame := owner.symm.trans (Tree.stateOf_decision found hown)
  simp only [Except.ok.injEq, Option.some.injEq] at hsame
  exact ⟨state, Tree.stateOf_chance he hr hp found (hsame ▸ hown), stands⟩

section Navigation

variable [Navigator σ S α]

/-- Standing ready for a node brings the navigator to the state it belongs to. -/
theorem Ready.stands (tracks : Tracks kind at_) (ready : progress.Ready at_ id)
    (kept : kind progress.navigator) {node : Node S α} {navigator : σ}
    (found : progress.tree.nodes[id]? = some node)
    (stands : Stands progress.navigator node.role.state? navigator) :
    kind navigator ∧
      ∃ state, progress.tree.stateOf id = .ok (some state) ∧ at_ navigator state := by
  cases hr : node.role with
  | decision state =>
    rw [hr] at stands
    exact ⟨tracks.stays kept stands, state, Tree.stateOf_decision found hr,
      tracks.reaches kept stands⟩
  | chance index label =>
    rw [hr] at stands
    obtain rfl : navigator = progress.navigator := stands
    exact ⟨kept, ready node found (by rw [hr]; rfl)⟩

/-- Getting ready leaves the tree alone. -/
theorem Approach.same {result : Except (Failure α) Unit}
    (approach : Approach progress id result last) : last.tree = progress.tree := by
  cases approach <;> rfl

/-- Getting ready leaves the tree alone, and if it succeeds the navigator is ready. -/
theorem Approach.ready {result : Except (Failure α) Unit} (tracks : Tracks kind at_)
    (approach : Approach progress id result last) (kept : kind progress.navigator) :
    last.tree = progress.tree ∧ kind last.navigator ∧ (result = .ok () → last.Ready at_ id) := by
  cases approach with
  | lost missing => exact ⟨rfl, kept, nofun⟩
  | decision found role =>
    refine ⟨rfl, kept, fun _ node hn hr => ?_⟩
    rw [found, Option.some.injEq] at hn
    rw [hn, hr] at role
    cases role
  | astray found role owner => exact ⟨rfl, kept, nofun⟩
  | stateless found role owner => exact ⟨rfl, kept, nofun⟩
  | moved found role owner move =>
    refine ⟨rfl, tracks.stays kept move, fun hok _ _ _ => ⟨_, owner, ?_⟩⟩
    rw [hok] at move
    exact tracks.reaches kept move

variable [Scalar α]

/-- Arriving grows the tree by what the navigator tells of the state there. -/
theorem Arrival.steps (tracks : Tracks kind at_) {result : Except (Failure α) Unit}
    (arrival : Arrival progress id result here) (kept : kind progress.navigator)
    (ready : progress.Ready at_ id) :
    Tree.Steps (Tree.Told at_) progress.tree here.tree ∧ kind here.navigator := by
  cases arrival with
  | lost missing => exact ⟨.refl, kept⟩
  | barred found role moved => exact ⟨.refl, tracks.stays kept moved⟩
  | silent found stands bare asked => exact ⟨.refl, (ready.stands tracks kept found stands).1⟩
  | known found stands expanded => exact ⟨.refl, (ready.stands tracks kept found stands).1⟩
  | @opened node navigator children found stands bare asked =>
    obtain ⟨keptAfter, state, owner, there⟩ := ready.stands tracks kept found stands
    have shape := Role.offspring_eq_ok asked
    exact ⟨.single (.adopt found bare (fun child hc => (shape child hc).1)
      (fun child hc => (shape child hc).2) ⟨navigator, node, state, there, found, owner, asked⟩),
      keptAfter⟩

/-- Arriving changes a tree in steps, whether or not the navigator is ready. -/
theorem Arrival.changes {result : Except (Failure α) Unit}
    (arrival : Arrival progress id result here) : Tree.Changes progress.tree here.tree := by
  cases arrival with
  | lost | barred | silent | known => exact .refl
  | opened found stands bare asked =>
    have shape := Role.offspring_eq_ok asked
    exact .single (.adopt found bare (fun child hc => (shape child hc).1)
      (fun child hc => (shape child hc).2) trivial)

/-- Where a descent has arrived there was a node. -/
theorem Arrival.found (arrival : Arrival progress id (.ok ()) here) :
    ∃ node, progress.tree.nodes[id]? = some node := by
  cases arrival with
  | known found => exact ⟨_, found⟩
  | opened found => exact ⟨_, found⟩

/-- Where a descent has arrived there is an expanded node. -/
theorem Arrival.expanded (arrival : Arrival progress id (.ok ()) here) :
    ∃ node, here.tree.nodes[id]? = some node ∧ node.expanded = true := by
  cases arrival with
  | known found stands expanded => exact ⟨_, found, expanded⟩
  | opened found stands bare asked => exact ⟨_, Tree.adopt_old _ found, by rw [if_pos rfl]⟩

/-- Where a descent has arrived the navigator stands in the state of the node. -/
theorem Arrival.stands (tracks : Tracks kind at_)
    (arrival : Arrival progress id (.ok ()) here) (kept : kind progress.navigator)
    (ready : progress.Ready at_ id) :
    ∃ state, here.tree.stateOf id = .ok (some state) ∧ at_ here.navigator state := by
  have grown := (arrival.steps tracks kept ready).1.extends
  cases arrival with
  | known found stands expanded => exact (ready.stands tracks kept found stands).2
  | opened found stands bare asked =>
    obtain ⟨-, state, owner, there⟩ := ready.stands tracks kept found stands
    exact ⟨state, grown.stateOf owner, there⟩

end Navigation

section Leaving

variable [Scalar α] [DrawSource υ α] {rules : Rules S α} {bias : α}

/-- Leaving a node changes neither the tree nor the navigator. -/
theorem Departure.same {result : Except (Failure α) (Move α)}
    (departure : Departure rules bias progress id result last) :
    last.tree = progress.tree ∧ last.navigator = progress.navigator := by
  cases departure <;> exact ⟨rfl, rfl⟩

/-- Where a descent goes on to is a child of the node. -/
theorem Departure.below {move : Move α} {child : Nat}
    (departure : Departure rules bias progress id (.ok move) last)
    (goes : move.next? = some child) :
    ∃ node, progress.tree.nodes[id]? = some node ∧ child ∈ node.children := by
  cases departure with
  | stop found role selected => cases goes
  | pick found role selected =>
    cases goes
    exact ⟨_, found, Tree.mem_of_select selected found⟩
  | act found role earned draw =>
    cases goes
    exact ⟨_, found, (Tree.draw_eq_ok draw found).2.1⟩

/-- A node that a descent goes on to finds the navigator ready. -/
theorem Departure.ready {move : Move α} {child : Nat} {state : S} (layered : there.tree.Layered)
    (owner : there.tree.stateOf id = .ok (some state)) (stands : at_ there.navigator state)
    (departure : Departure rules bias (here.countVisit id) id (.ok move) there)
    (goes : move.next? = some child) : there.Ready at_ child := by
  obtain ⟨node, found, below⟩ := departure.below goes
  rw [← departure.same.1] at found
  exact Ready.below layered found below owner stands

end Leaving

section Growing

variable [Navigator σ S α] [Scalar α] [DrawSource υ α] {rules : Rules S α} {bias : α}

/-- Coming to a node and leaving it grows the tree by what the navigator tells
of the state there, in which it stays. -/
theorem Departure.steps (tracks : Tracks kind at_) (kept : kind progress.navigator)
    (ready : progress.Ready at_ id) {result : Except (Failure α) (Move α)}
    (arrival : Arrival progress id (.ok ()) here)
    (departure : Departure rules bias (here.countVisit id) id result there) :
    Tree.Steps (Tree.Told at_) progress.tree there.tree ∧ kind there.navigator ∧
      ∃ state, there.tree.stateOf id = .ok (some state) ∧ at_ there.navigator state := by
  obtain ⟨grown, keptHere⟩ := arrival.steps tracks kept ready
  obtain ⟨state, owner, stands⟩ := arrival.stands tracks kept ready
  obtain ⟨ht, hn⟩ := departure.same
  have counted : Tree.Step (Tree.Told at_) here.tree (here.countVisit id).tree :=
    .revise here.tree id Node.alike_countVisit
  rw [ht, hn]
  exact ⟨grown.tail counted, keptHere, state, counted.extends.stateOf owner, stands⟩

/-- A descent changes its tree in steps of growing, however it ends. -/
theorem Descends.steps (tracks : Tracks kind at_) {left : Nat} {way : List (Nat × α)}
    {result : Except (Failure α) Nat}
    (descent : Descends rules bias left id progress way last result)
    (layered : progress.tree.Layered) (kept : kind progress.navigator)
    (ready : progress.Ready at_ id) :
    Tree.Steps (Tree.Told at_) progress.tree last.tree ∧ kind last.navigator := by
  induction descent with
  | horizon => exact ⟨.refl, kept⟩
  | endless => exact ⟨.refl, kept⟩
  | refused arrival => exact arrival.steps tracks kept ready
  | broken arrival departure =>
    obtain ⟨grown, kept, -⟩ := departure.steps tracks kept ready arrival
    exact ⟨grown, kept⟩
  | stop arrival departure =>
    obtain ⟨grown, kept, -⟩ := departure.steps tracks kept ready arrival
    exact ⟨grown, kept⟩
  | pick arrival departure rest ih | act arrival departure rest ih =>
    obtain ⟨grown, kept, state, owner, stands⟩ := departure.steps tracks kept ready arrival
    have layered := grown.layered layered
    obtain ⟨more, kept⟩ := ih layered kept (departure.ready layered owner stands rfl)
    exact ⟨grown.trans more, kept⟩

/-- Taking visits back is a row of changes of statistics. -/
theorem steps_dropVisits (gives : Tree S α → Nat → List (Node S α) → Prop) (tree : Tree S α)
    (trail : List (Nat × α)) : Tree.Steps gives tree (tree.dropVisits trail) := by
  induction trail generalizing tree with
  | nil => exact .refl
  | cons entry rest ih =>
    have dropped := ih (tree.modify entry.1 Node.dropVisit)
    exact .head (.revise tree entry.1 Node.alike_dropVisit) dropped

/-- Learning returns is a row of changes of statistics. -/
theorem steps_backUp (gives : Tree S α → Nat → List (Node S α) → Prop) (tree : Tree S α)
    (trail : List (Nat × α)) : Tree.Steps gives tree (tree.backUp trail).tree := by
  have key : ∀ backup : Backup S α,
      Tree.Steps gives backup.tree (trail.foldl Backup.add backup).tree := by
    induction trail with
    | nil => exact fun _ => .refl
    | cons entry rest ih =>
      intro backup
      have learnt : Tree.Step gives backup.tree (backup.add entry).tree :=
        .revise backup.tree entry.1 fun node => node.alike_foldReturn _
      exact .head learnt (ih (backup.add entry))
  exact key ⟨Scalar.zero, [], tree⟩

/-- A rollout changes its tree in steps of growing, however it ends. -/
theorem Rolls.steps (tracks : Tracks kind at_) {start horizon : Nat}
    {result : Except (Failure α) (Rollout α)}
    (rolls : Rolls rules progress start horizon bias result last)
    (layered : progress.tree.Layered) (kept : kind progress.navigator) :
    Tree.Steps (Tree.Told at_) progress.tree last.tree ∧ kind last.navigator := by
  cases rolls with
  | idle nought => exact ⟨.refl, kept⟩
  | refused some approach =>
    obtain ⟨same, kept, -⟩ := approach.ready tracks kept
    rw [same]
    exact ⟨.refl, kept⟩
  | broken some approach descent =>
    obtain ⟨same, kept, ready⟩ := approach.ready tracks kept
    rw [← same] at layered ⊢
    obtain ⟨grown, kept⟩ := descent.steps tracks layered kept (ready rfl)
    exact ⟨grown.trans (steps_dropVisits _ _ _), kept⟩
  | made some approach descent =>
    obtain ⟨same, kept, ready⟩ := approach.ready tracks kept
    rw [← same] at layered ⊢
    obtain ⟨grown, kept⟩ := descent.steps tracks layered kept (ready rfl)
    exact ⟨grown.trans (steps_backUp _ _ _), kept⟩

/-- Coming to a node and leaving it changes a tree in steps. -/
theorem Departure.changes {result : Except (Failure α) (Move α)}
    (arrival : Arrival progress id (.ok ()) here)
    (departure : Departure rules bias (here.countVisit id) id result there) :
    Tree.Changes progress.tree there.tree := by
  rw [departure.same.1]
  exact arrival.changes.tail (.revise here.tree id Node.alike_countVisit)

/-- A descent changes a tree in steps. -/
theorem Descends.changes {left : Nat} {way : List (Nat × α)} {result : Except (Failure α) Nat}
    (descent : Descends rules bias left id progress way last result) :
    Tree.Changes progress.tree last.tree := by
  induction descent with
  | horizon | endless => exact .refl
  | refused arrival => exact arrival.changes
  | broken arrival departure | stop arrival departure =>
    have changes := departure.changes arrival
    exact changes
  | pick arrival departure _ ih | act arrival departure _ ih =>
    exact (departure.changes arrival).trans ih

/-- A rollout changes a tree in steps, whatever tree it is. -/
theorem Rolls.changes {start horizon : Nat} {result : Except (Failure α) (Rollout α)}
    (rolls : Rolls rules progress start horizon bias result last) :
    Tree.Changes progress.tree last.tree := by
  cases rolls with
  | idle nought => exact .refl
  | refused some approach => rw [approach.same]
  | broken some approach descent =>
    rw [← approach.same]
    exact descent.changes.trans (steps_dropVisits _ _ _)
  | made some approach descent =>
    rw [← approach.same]
    exact descent.changes.trans (steps_backUp _ _ _)

/-- A node that was left is expanded. -/
theorem Departure.opened {result : Except (Failure α) (Move α)}
    (arrival : Arrival progress id (.ok ()) here)
    (departure : Departure rules bias (here.countVisit id) id result there) :
    ∃ node, there.tree.nodes[id]? = some node ∧ node.expanded = true := by
  obtain ⟨node, found, expanded⟩ := arrival.expanded
  rw [departure.same.1]
  exact ⟨_, Tree.modify_old found, by rw [if_pos rfl]; exact expanded⟩

/-- The nodes on a way are expanded in the end. -/
theorem Descends.opened {left : Nat} {way : List (Nat × α)} {result : Except (Failure α) Nat}
    (descent : Descends rules bias left id progress way last result) :
    ∀ other ∈ way.map Prod.fst,
      ∃ node, last.tree.nodes[other]? = some node ∧ node.expanded = true := by
  induction descent with
  | horizon | endless | refused => nofun
  | broken arrival departure | stop arrival departure =>
    have opened := departure.opened arrival
    intro other h
    rw [List.mem_singleton.mp h]
    exact opened
  | pick arrival departure rest ih | act arrival departure rest ih =>
    intro other h
    rcases List.mem_cons.mp h with rfl | h
    · obtain ⟨node, found, expanded⟩ := departure.opened arrival
      obtain ⟨after, ha, kept⟩ := rest.changes.extends found
      exact ⟨after, ha, kept.expanded expanded⟩
    · exact ih other h

/-- A node that a descent goes on to comes later in the table. -/
theorem Departure.later {move : Move α} {child : Nat} (linked : progress.tree.Linked)
    (arrival : Arrival progress id (.ok ()) here)
    (departure : Departure rules bias (here.countVisit id) id (.ok move) there)
    (goes : move.next? = some child) : id < child := by
  obtain ⟨node, found, below⟩ := departure.below goes
  rw [← departure.same.1] at found
  obtain ⟨-, -, -, later⟩ := ((departure.changes arrival).linked linked).child found below
  exact later

end Growing

end Progress

end HorizonUct
