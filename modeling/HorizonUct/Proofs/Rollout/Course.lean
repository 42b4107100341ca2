import HorizonUct.Proofs.Tree.Owners
import HorizonUct.Proofs.Tree.Picks
import HorizonUct.Rollout.Backup

/-!
# The course of a rollout

A descent is told node by node: where it arrived, whether it could leave
again, and how it went on from there. The nodes on the way are listed from the
first to the last, each with what it earned, whether the descent came to its
end or broke off. A bound that is used up is allowed for at any point, so
nothing here says that it never is.
-/

namespace HorizonUct

/-- The children that a role asks for are blank and of the other kind. -/
theorem Role.offspring_eq_ok {σ S α : Type} [Navigator σ S α] [Scalar α] {navigator : σ}
    {role : Role S} {children : List (Node S α)} (h : role.offspring navigator = .ok children) :
    ∀ child ∈ children, child.Blank ∧ child.role.isDecision = !role.isDecision := by
  intro child hc
  cases role with
  | decision state =>
    obtain ⟨count, -, h⟩ := Attempt.bind_eq_ok_iff.mp h
    obtain ⟨place, -, hm⟩ := Attempt.exists_of_mem_right (Attempt.mapM_eq_ok_iff.mp h) hc
    obtain ⟨label, -, he⟩ := Attempt.bind_eq_ok_iff.mp hm
    cases he
    exact ⟨Node.blank_fresh _ _, rfl⟩
  | chance index label =>
    obtain ⟨count, -, h⟩ := Attempt.bind_eq_ok_iff.mp h
    obtain ⟨place, -, hm⟩ := Attempt.exists_of_mem_right (Attempt.mapM_eq_ok_iff.mp h) hc
    obtain ⟨probability, -, hm⟩ := Attempt.bind_eq_ok_iff.mp hm
    obtain ⟨target, -, he⟩ := Attempt.bind_eq_ok_iff.mp hm
    cases he
    exact ⟨Node.blank_fresh _ _, rfl⟩

/-- The navigator stands ready for a node: moved to its state, or left alone. -/
def Stands {σ S α : Type} [Navigator σ S α] (before : σ) : Option S → σ → Prop
  | none, after => after = before
  | some state, after => Navigator.moveTo state before = (.ok (), after)

namespace Progress

variable {σ υ S α : Type}

/-- What can come of arriving at a node. -/
inductive Arrival [Navigator σ S α] [Scalar α] (progress : Progress σ υ S α) (id : Nat) :
    Except (Failure α) Unit → Progress σ υ S α → Prop where
  /-- There is no such node. -/
  | lost {failure : Failure α} (missing : progress.tree.node id = .error failure) :
      Arrival progress id (.error failure) progress
  /-- The navigator cannot move to the state of the node. -/
  | barred {node : Node S α} {state : S} {failure : Failure α} {navigator : σ}
      (found : progress.tree.nodes[id]? = some node) (role : node.role = .decision state)
      (moved : Navigator.moveTo state progress.navigator = (.error failure, navigator)) :
      Arrival progress id (.error failure) { progress with navigator := navigator }
  /-- The navigator cannot tell the children of the node. -/
  | silent {node : Node S α} {failure : Failure α} {navigator : σ}
      (found : progress.tree.nodes[id]? = some node)
      (stands : Stands progress.navigator node.role.state? navigator)
      (bare : node.expanded = false) (asked : node.role.offspring navigator = .error failure) :
      Arrival progress id (.error failure) { progress with navigator := navigator }
  /-- The children of the node have been made before. -/
  | known {node : Node S α} {navigator : σ} (found : progress.tree.nodes[id]? = some node)
      (stands : Stands progress.navigator node.role.state? navigator)
      (expanded : node.expanded = true) :
      Arrival progress id (.ok ()) { progress with navigator := navigator }
  /-- The children of the node are made. -/
  | opened {node : Node S α} {navigator : σ} {children : List (Node S α)}
      (found : progress.tree.nodes[id]? = some node)
      (stands : Stands progress.navigator node.role.state? navigator)
      (bare : node.expanded = false) (asked : node.role.offspring navigator = .ok children) :
      Arrival progress id (.ok ())
        { progress with tree := progress.tree.adopt id children, navigator := navigator }

/-- Arriving comes to one of the arrivals. -/
theorem arrival_arrive [Navigator σ S α] [Scalar α] (progress : Progress σ υ S α) (id : Nat) :
    Arrival progress id (progress.arrive id).1 (progress.arrive id).2 := by
  cases hn : progress.tree.node id with
  | error failure =>
    simp only [arrive, hn]
    exact .lost hn
  | ok node =>
    have found := Tree.node_eq_ok_iff.mp hn
    -- the same three ends wherever the navigator has come to stand
    have expand : ∀ navigator : σ, Stands progress.navigator node.role.state? navigator →
        Arrival progress id (progress.tree.expand id navigator).1
          { progress with
            tree := (progress.tree.expand id navigator).2
            navigator := navigator } := by
      intro navigator stands
      simp only [Tree.expand, hn]
      cases he : node.expanded with
      | true => exact .known found stands he
      | false =>
        cases ho : node.role.offspring navigator with
        | error failure => exact .silent found stands he ho
        | ok children => exact .opened found stands he ho
    cases hr : node.role with
    | chance index label =>
      simp only [arrive, hn, hr, Role.state?, stand]
      exact expand progress.navigator (by rw [hr]; rfl)
    | decision state =>
      simp only [arrive, hn, hr, Role.state?, stand]
      cases hm : Navigator.moveTo state progress.navigator with
      | mk result navigator =>
        cases result with
        | error failure => exact .barred found hr hm
        | ok _ => exact expand navigator (by rw [hr]; exact hm)

/-- What can come of leaving a node. -/
inductive Departure [Scalar α] [DrawSource υ α] (rules : Rules S α) (bias : α)
    (progress : Progress σ υ S α) (id : Nat) :
    Except (Failure α) (Move α) → Progress σ υ S α → Prop where
  /-- There is no such node. -/
  | lost {failure : Failure α} (missing : progress.tree.node id = .error failure) :
      Departure rules bias progress id (.error failure) progress
  /-- The children of the node are not all there to select from. -/
  | unselected {node : Node S α} {state : S} {failure : Failure α}
      (found : progress.tree.nodes[id]? = some node) (role : node.role = .decision state)
      (selected : progress.tree.select id bias = .error failure) :
      Departure rules bias progress id (.error failure) progress
  /-- Nothing can be selected. -/
  | stop {node : Node S α} {state : S} (found : progress.tree.nodes[id]? = some node)
      (role : node.role = .decision state) (selected : progress.tree.select id bias = .ok none) :
      Departure rules bias progress id (.ok .stop) progress
  /-- An action is selected. -/
  | pick {node : Node S α} {state : S} {child : Nat}
      (found : progress.tree.nodes[id]? = some node) (role : node.role = .decision state)
      (selected : progress.tree.select id bias = .ok (some child)) :
      Departure rules bias progress id (.ok (.pick child)) progress
  /-- What the action earns cannot be told. -/
  | unearned {node : Node S α} {index : Nat} {label : String} {failure : Failure α}
      (found : progress.tree.nodes[id]? = some node) (role : node.role = .chance index label)
      (earned : progress.tree.earned rules id label = .error failure) :
      Departure rules bias progress id (.error failure) progress
  /-- No outcome can be drawn. -/
  | undrawn {node : Node S α} {index : Nat} {label : String} {reward : α} {failure : Failure α}
      (found : progress.tree.nodes[id]? = some node) (role : node.role = .chance index label)
      (earned : progress.tree.earned rules id label = .ok reward)
      (draw : progress.tree.draw id rules.tolerance progress.source = .error failure) :
      Departure rules bias progress id (.error failure) progress
  /-- An outcome is drawn. -/
  | act {node : Node S α} {index : Nat} {label : String} {reward : α} {drawn : Drawn υ α}
      (found : progress.tree.nodes[id]? = some node) (role : node.role = .chance index label)
      (earned : progress.tree.earned rules id label = .ok reward)
      (draw : progress.tree.draw id rules.tolerance progress.source = .ok drawn) :
      Departure rules bias progress id (.ok (.act reward drawn.child))
        { progress with
          source := drawn.source
          journal := drawn.event.toList ++ progress.journal }

/-- Leaving comes to one of the departures. -/
theorem departure_depart [Scalar α] [DrawSource υ α] (rules : Rules S α) (bias : α)
    (progress : Progress σ υ S α) (id : Nat) :
    Departure rules bias progress id (progress.depart rules bias id).1
      (progress.depart rules bias id).2 := by
  cases hn : progress.tree.node id with
  | error failure =>
    simp only [depart, hn]
    exact .lost hn
  | ok node =>
    have found := Tree.node_eq_ok_iff.mp hn
    cases hr : node.role with
    | decision state =>
      cases hs : progress.tree.select id bias with
      | error failure =>
        simp only [depart, hn, hr, hs]
        exact .unselected found hr hs
      | ok child? =>
        cases child? <;> simp only [depart, hn, hr, hs]
        · exact .stop found hr hs
        · exact .pick found hr hs
    | chance index label =>
      cases he : progress.tree.earned rules id label with
      | error failure =>
        simp only [depart, hn, hr, he]
        exact .unearned found hr he
      | ok reward =>
        cases hd : progress.tree.draw id rules.tolerance progress.source with
        | error failure =>
          simp only [depart, hn, hr, he, hd]
          exact .undrawn found hr he hd
        | ok drawn =>
          simp only [depart, hn, hr, he, hd]
          exact .act found hr he hd

/-- The way that a descent takes: the nodes at which visits were counted, from
the first to the last, each with what it earned. -/
inductive Descends [Navigator σ S α] [Scalar α] [DrawSource υ α] (rules : Rules S α) (bias : α) :
    Nat → Nat → Progress σ υ S α → List (Nat × α) → Progress σ υ S α →
      Except (Failure α) Nat → Prop where
  /-- No action is left to take. -/
  | horizon (id : Nat) (progress : Progress σ υ S α) :
      Descends rules bias 0 id progress [] progress (.ok 0)
  /-- The bound on the moves is used up. -/
  | endless (left id : Nat) (progress : Progress σ υ S α) :
      Descends rules bias (left + 1) id progress [] progress (.error .endlessWalk)
  /-- The descent does not arrive. -/
  | refused {left id : Nat} {progress last : Progress σ υ S α} {failure : Failure α}
      (arrival : Arrival progress id (.error failure) last) :
      Descends rules bias (left + 1) id progress [] last (.error failure)
  /-- The descent arrives and cannot leave. -/
  | broken {left id : Nat} {progress here last : Progress σ υ S α} {failure : Failure α}
      (arrival : Arrival progress id (.ok ()) here)
      (departure : Departure rules bias (here.countVisit id) id (.error failure) last) :
      Descends rules bias (left + 1) id progress [(id, Scalar.zero)] last (.error failure)
  /-- The node turns out to have no children. -/
  | stop {left id : Nat} {progress here last : Progress σ υ S α}
      (arrival : Arrival progress id (.ok ()) here)
      (departure : Departure rules bias (here.countVisit id) id (.ok .stop) last) :
      Descends rules bias (left + 1) id progress [(id, Scalar.zero)] (last.tell (.deadlockMet id))
        (.ok (left + 1))
  /-- The descent goes on to a selected action. -/
  | pick {left id child : Nat} {progress here there last : Progress σ υ S α}
      {way : List (Nat × α)} {result : Except (Failure α) Nat}
      (arrival : Arrival progress id (.ok ()) here)
      (departure : Departure rules bias (here.countVisit id) id (.ok (.pick child)) there)
      (rest : Descends rules bias (left + 1) child there way last result) :
      Descends rules bias (left + 1) id progress ((id, Scalar.zero) :: way) last result
  /-- The descent goes on to a drawn outcome. -/
  | act {left id child : Nat} {reward : α} {progress here there last : Progress σ υ S α}
      {way : List (Nat × α)} {result : Except (Failure α) Nat}
      (arrival : Arrival progress id (.ok ()) here)
      (departure : Departure rules bias (here.countVisit id) id (.ok (.act reward child)) there)
      (rest : Descends rules bias left child there way last result) :
      Descends rules bias (left + 1) id progress ((id, reward) :: way) last result

/-- A descent takes such a way, and puts it in front of the trail, latest node first. -/
theorem descends_descend [Navigator σ S α] [Scalar α] [DrawSource υ α] (rules : Rules S α)
    (bias : α) (bound left id : Nat) (trail : List (Nat × α)) (progress : Progress σ υ S α) :
    ∃ way, (descend rules bias bound left id trail progress).trail = way.reverse ++ trail ∧
      Descends rules bias left id progress way
        (descend rules bias bound left id trail progress).progress
        (descend rules bias bound left id trail progress).result := by
  induction bound generalizing left id trail progress with
  | zero =>
    cases left with
    | zero => exact ⟨[], by simp only [descend, List.reverse_nil, List.nil_append],
        by simpa only [descend] using .horizon id progress⟩
    | succ left => exact ⟨[], by simp only [descend, List.reverse_nil, List.nil_append],
        by simpa only [descend] using .endless left id progress⟩
  | succ bound ih =>
    cases left with
    | zero => exact ⟨[], by simp only [descend, List.reverse_nil, List.nil_append],
        by simpa only [descend] using .horizon id progress⟩
    | succ left =>
      have arrival := arrival_arrive progress id
      cases ha : progress.arrive id with
      | mk result here =>
        rw [ha] at arrival
        cases result with
        | error failure =>
          simp only [descend, ha]
          exact ⟨[], rfl, .refused arrival⟩
        | ok _ =>
          have departure := departure_depart rules bias (here.countVisit id) id
          cases hd : (here.countVisit id).depart rules bias id with
          | mk move there =>
            rw [hd] at departure
            cases move with
            | error failure =>
              simp only [descend, ha, hd]
              exact ⟨[(id, Scalar.zero)], rfl, .broken arrival departure⟩
            | ok move =>
              cases move with
              | stop =>
                simp only [descend, ha, hd]
                exact ⟨[(id, Scalar.zero)], rfl, .stop arrival departure⟩
              | pick child =>
                simp only [descend, ha, hd]
                obtain ⟨way, htrail, rest⟩ := ih (left + 1) child ((id, Scalar.zero) :: trail) there
                refine ⟨(id, Scalar.zero) :: way, ?_, .pick arrival departure rest⟩
                rw [htrail, List.reverse_cons, List.append_assoc, List.singleton_append]
              | act reward child =>
                simp only [descend, ha, hd]
                obtain ⟨way, htrail, rest⟩ := ih left child ((id, reward) :: trail) there
                refine ⟨(id, reward) :: way, ?_, .act arrival departure rest⟩
                rw [htrail, List.reverse_cons, List.append_assoc, List.singleton_append]

/-- What can come of getting ready to start at a node. -/
inductive Approach [Navigator σ S α] (progress : Progress σ υ S α) (id : Nat) :
    Except (Failure α) Unit → Progress σ υ S α → Prop where
  /-- There is no such node. -/
  | lost {failure : Failure α} (missing : progress.tree.node id = .error failure) :
      Approach progress id (.error failure) progress
  /-- A state needs no preparation. -/
  | decision {node : Node S α} (found : progress.tree.nodes[id]? = some node)
      (role : node.role.isDecision = true) : Approach progress id (.ok ()) progress
  /-- The node above an action is not there. -/
  | astray {node : Node S α} {failure : Failure α} (found : progress.tree.nodes[id]? = some node)
      (role : node.role.isDecision = false) (owner : progress.tree.stateOf id = .error failure) :
      Approach progress id (.error failure) progress
  /-- There is no state above an action. -/
  | stateless {node : Node S α} (found : progress.tree.nodes[id]? = some node)
      (role : node.role.isDecision = false) (owner : progress.tree.stateOf id = .ok none) :
      Approach progress id (.error (.navigation (.stateless id))) progress
  /-- The navigator was sent to the state above an action. -/
  | moved {node : Node S α} {state : S} {result : Except (Failure α) Unit} {navigator : σ}
      (found : progress.tree.nodes[id]? = some node) (role : node.role.isDecision = false)
      (owner : progress.tree.stateOf id = .ok (some state))
      (move : Navigator.moveTo state progress.navigator = (result, navigator)) :
      Approach progress id result { progress with navigator := navigator }

/-- Getting ready comes to one of the approaches. -/
theorem approach_approach [Navigator σ S α] (progress : Progress σ υ S α) (id : Nat) :
    Approach progress id (progress.approach id).1 (progress.approach id).2 := by
  cases hn : progress.tree.node id with
  | error failure =>
    simp only [approach, hn]
    exact .lost hn
  | ok node =>
    have found := Tree.node_eq_ok_iff.mp hn
    cases hr : node.role.isDecision with
    | true =>
      simp only [approach, hn, hr, if_true]
      exact .decision found hr
    | false =>
      cases hs : progress.tree.stateOf id with
      | error failure =>
        simp only [approach, hn, hr, hs, Bool.false_eq_true, if_false]
        exact .astray found hr hs
      | ok state? =>
        cases state? with
        | none =>
          simp only [approach, hn, hr, hs, Bool.false_eq_true, if_false]
          exact .stateless found hr hs
        | some state =>
          simp only [approach, hn, hr, hs, Bool.false_eq_true, if_false, stand]
          exact .moved found hr hs rfl

/-- What can come of a rollout. -/
inductive Rolls [Navigator σ S α] [Scalar α] [DrawSource υ α] (rules : Rules S α)
    (progress : Progress σ υ S α) (start horizon : Nat) (bias : α) :
    Except (Failure α) (Rollout α) → Progress σ υ S α → Prop where
  /-- Nothing is asked for. -/
  | idle (nought : horizon = 0) :
      Rolls rules progress start horizon bias (.ok ⟨Scalar.zero, [], 0⟩) progress
  /-- The rollout cannot start. -/
  | refused {last : Progress σ υ S α} {failure : Failure α} (some : horizon ≠ 0)
      (approach : Approach progress start (.error failure) last) :
      Rolls rules progress start horizon bias (.error failure) last
  /-- The descent breaks off, and its visits are taken back. -/
  | broken {ready last : Progress σ υ S α} {way : List (Nat × α)} {failure : Failure α}
      (some : horizon ≠ 0) (approach : Approach progress start (.ok ()) ready)
      (descent : Descends rules bias horizon start ready way last (.error failure)) :
      Rolls rules progress start horizon bias (.error failure)
        { last with tree := last.tree.dropVisits way.reverse }
  /-- The descent comes to its end, and its nodes learn their returns. -/
  | made {ready last : Progress σ υ S α} {way : List (Nat × α)} {left : Nat}
      (some : horizon ≠ 0) (approach : Approach progress start (.ok ()) ready)
      (descent : Descends rules bias horizon start ready way last (.ok left)) :
      Rolls rules progress start horizon bias
        (.ok ⟨(last.tree.backUp way.reverse).total, (last.tree.backUp way.reverse).path,
          horizon - left⟩)
        { last with tree := (last.tree.backUp way.reverse).tree }

/-- A rollout comes to one of these ends. -/
theorem rolls_rollout [Navigator σ S α] [Scalar α] [DrawSource υ α] (rules : Rules S α)
    (progress : Progress σ υ S α) (start horizon : Nat) (bias : α) :
    Rolls rules progress start horizon bias (progress.rollout rules start horizon bias).1
      (progress.rollout rules start horizon bias).2 := by
  by_cases hz : horizon = 0
  · simp only [rollout, if_pos hz]
    exact .idle hz
  · have approach := approach_approach progress start
    cases ha : progress.approach start with
    | mk result ready =>
      rw [ha] at approach
      cases result with
      | error failure =>
        simp only [rollout, if_neg hz, ha]
        exact .refused hz approach
      | ok _ =>
        obtain ⟨way, htrail, descent⟩ := descends_descend rules bias
          (ready.tree.moveBound horizon) horizon start [] ready
        rw [List.append_nil] at htrail
        cases hd : descend rules bias (ready.tree.moveBound horizon) horizon start [] ready with
        | mk last trail result =>
          rw [hd] at htrail descent
          dsimp only at htrail descent
          subst htrail
          cases result with
          | error failure =>
            simp only [rollout, if_neg hz, ha, hd]
            exact .broken hz approach descent
          | ok left =>
            simp only [rollout, if_neg hz, ha, hd]
            exact .made hz approach descent

end Progress

end HorizonUct
