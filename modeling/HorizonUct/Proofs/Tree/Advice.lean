import HorizonUct.Proofs.Tree.Branching

/-!
# What a tree is worth to those who take its advice

In a state a tree advises to take the favourite action, provided that this has
outcomes. A state is worth what the action earns there and what its outcomes
are worth, each with its probability; without advice it is worth nought. Since
outcomes come later in the table than the state, this settles what each state
is worth.
-/

namespace HorizonUct

/-- What a tree advises in a state. -/
structure Advice (S α : Type) where
  /-- The state. -/
  state : S
  /-- The label of the action to take. -/
  label : String
  /-- The outcomes of the action with their indices. -/
  outcomes : List (Nat × Node S α)

/-- What advice is worth: the reward of the action, and what the outcomes are
worth, each with its probability, from left to right. -/
def Advice.worth {S α : Type} [Scalar α] (reward : S → String → Except (Failure α) α)
    (worth : Nat → Except (Failure α) α) (advice : Advice S α) : Except (Failure α) α := do
  let earned ← reward advice.state advice.label
  let terms ← advice.outcomes.mapM fun (id, outcome) => do
    return outcome.reach.getD Scalar.zero * (← worth id)
  return earned + Scalar.total terms

/-- What advice is worth can be told exactly if its reward can be told and what
each outcome is worth. -/
theorem Advice.worth_eq_ok_iff {S α : Type} [Scalar α]
    {reward : S → String → Except (Failure α) α} {worth : Nat → Except (Failure α) α}
    {advice : Advice S α} {value : α} : advice.worth reward worth = .ok value ↔
      ∃ earned terms, reward advice.state advice.label = .ok earned ∧
        List.Forall₂ (fun entry term => ∃ value, worth entry.1 = .ok value ∧
          term = entry.2.reach.getD Scalar.zero * value) advice.outcomes terms ∧
        value = earned + Scalar.total terms := by
  have step : ∀ (entry : Nat × Node S α) (term : α),
      (do return entry.2.reach.getD Scalar.zero * (← worth entry.1) : Except (Failure α) α) =
        .ok term ↔ ∃ value, worth entry.1 = .ok value ∧
          term = entry.2.reach.getD Scalar.zero * value := by
    intro entry term
    rw [Attempt.bind_eq_ok_iff]
    exact exists_congr fun value => and_congr_right fun _ =>
      ⟨fun h => (Except.ok.inj h).symm, fun h => by rw [h]; rfl⟩
  rw [Advice.worth, Attempt.bind_eq_ok_iff]
  constructor
  · rintro ⟨earned, told, h⟩
    obtain ⟨terms, each, h⟩ := Attempt.bind_eq_ok_iff.mp h
    refine ⟨earned, terms, told, ?_, (Except.ok.inj h).symm⟩
    exact (Attempt.mapM_eq_ok_iff.mp each).imp fun entry term => (step entry term).mp
  · rintro ⟨earned, terms, told, each, rfl⟩
    refine ⟨earned, told, Attempt.bind_eq_ok_iff.mpr ⟨terms, ?_, rfl⟩⟩
    exact Attempt.mapM_eq_ok_iff.mpr (each.imp fun entry term => (step entry term).mpr)

namespace Tree

variable {S α : Type} [Scalar α]

/-- What a tree advises at a node, if there is a favourite and it has outcomes. -/
def advice (tree : Tree S α) (id : Nat) : Except (Failure α) (Option (Advice S α)) := do
  match ← tree.favourite id with
  | none => return none
  | some best =>
    let outcomes ← tree.children best
    if outcomes.isEmpty then return none
    match (← tree.node id).role.state?, (← tree.node best).role.label? with
    | some state, some label => return some ⟨state, label, outcomes⟩
    | _, _ => throw (.navigation (.stateless best))

/-- What a node is worth, given what later ones are: nought without advice. -/
def advisedWorth (reward : S → String → Except (Failure α) α) (tree : Tree S α)
    (worth : Nat → Except (Failure α) α) (id : Nat) : Except (Failure α) α := do
  match ← tree.advice id with
  | none => return Scalar.zero
  | some advice => advice.worth reward worth

/-- What a node is worth, taking advice so many times at most. -/
def worthWithin (reward : S → String → Except (Failure α) α) (tree : Tree S α) :
    Nat → Nat → Except (Failure α) α
  | 0, _ => .error .endlessWalk
  | bound + 1, id => tree.advisedWorth reward (worthWithin reward tree bound) id

/-- What a node is worth to those who take the advice. -/
def worth (reward : S → String → Except (Failure α) α) (tree : Tree S α) (id : Nat) :
    Except (Failure α) α :=
  tree.worthWithin reward tree.size id

/-- A node that advice leads to from the root. -/
inductive Heeded (tree : Tree S α) : Nat → Prop where
  /-- The root is where advice is asked for first. -/
  | root : Heeded tree 0
  /-- It is asked for in each outcome of the action that was advised. -/
  | outcome {id : Nat} {advice : Advice S α} {entry : Nat × Node S α} (before : Heeded tree id)
      (advised : tree.advice id = .ok (some advice)) (after : entry ∈ advice.outcomes) :
      Heeded tree entry.1

variable {tree : Tree S α} {id : Nat} {node : Node S α}
variable {reward : S → String → Except (Failure α) α} {advice : Advice S α}

/-- Without a favourite there is no advice. -/
theorem advice_of_none (h : tree.favourite id = .ok none) : tree.advice id = .ok none := by
  rw [Tree.advice, h]
  rfl

/-- With a favourite the advice is to take it, if it has outcomes. -/
theorem advice_of_some {best place : Nat} {action : Node S α} {state : S} {label : String}
    {outcomes : List (Nat × Node S α)} (h : tree.favourite id = .ok (some best))
    (found : tree.nodes[id]? = some node) (role : node.role = .decision state)
    (there : tree.nodes[best]? = some action) (chance : action.role = .chance place label)
    (looked : tree.children best = .ok outcomes) :
    tree.advice id = .ok (if outcomes.isEmpty then none else some ⟨state, label, outcomes⟩) := by
  rw [Tree.advice, h]
  dsimp only [bind, Except.bind]
  rw [looked]
  dsimp only
  split
  · rfl
  · rw [node_eq_ok_iff.mpr found, node_eq_ok_iff.mpr there]
    dsimp only
    rw [role, chance]
    rfl

/-- A state gives advice, if only to stay. -/
theorem Branching.advice_ok (branching : tree.Branching) (found : tree.nodes[id]? = some node)
    (role : node.role.isDecision = true) : ∃ advice?, tree.advice id = .ok advice? := by
  obtain ⟨best?, h⟩ := branching.favourite_ok found
  cases best? with
  | none => exact ⟨none, advice_of_none h⟩
  | some best =>
    obtain ⟨action, place, label, outcomes, -, there, -, -, chance, looked⟩ :=
      branching.favourite found role h
    obtain ⟨state, own⟩ := Role.eq_decision role
    exact ⟨_, advice_of_some h found own there chance looked⟩

/-- What advice says: the state of the node, the label of the favourite, and
its outcomes, of which there is one at least. -/
theorem advice_eq_some (h : tree.advice id = .ok (some advice)) :
    advice.outcomes ≠ [] ∧ ∃ best node action place, tree.favourite id = .ok (some best) ∧
      tree.nodes[id]? = some node ∧ node.role = .decision advice.state ∧
        tree.nodes[best]? = some action ∧ action.role = .chance place advice.label ∧
          tree.children best = .ok advice.outcomes := by
  obtain ⟨best?, favoured, h⟩ := Attempt.bind_eq_ok_iff.mp h
  cases best? with
  | none => cases h
  | some best =>
    obtain ⟨outcomes, looked, h⟩ := Attempt.bind_eq_ok_iff.mp h
    split at h
    · cases h
    · next some =>
      obtain ⟨node, found, h⟩ := Attempt.bind_eq_ok_iff.mp h
      obtain ⟨action, there, h⟩ := Attempt.bind_eq_ok_iff.mp h
      split at h
      · next state label own taken =>
        cases h
        obtain ⟨place, chance⟩ := Role.label?_eq_some_iff.mp taken
        exact ⟨fun none => some (List.isEmpty_iff.mpr none), best, node, action, place, favoured,
          node_eq_ok_iff.mp found, Role.state?_eq_some_iff.mp own, node_eq_ok_iff.mp there,
          chance, looked⟩
      · cases h

/-- The outcomes of what is advised come later in the table. -/
theorem Linked.advice_later (linked : tree.Linked) (h : tree.advice id = .ok (some advice)) :
    ∀ entry ∈ advice.outcomes, id < entry.1 ∧ tree.nodes[entry.1]? = some entry.2 := by
  obtain ⟨-, best, node, action, -, favoured, found, -, there, -, looked⟩ := advice_eq_some h
  intro entry he
  obtain ⟨below, -⟩ := favourite_eq_some favoured found
  obtain ⟨-, -, -, later⟩ := linked.child found below
  obtain ⟨-, -, -, later'⟩ := linked.child there (fst_mem_of_mem_children looked there he)
  exact ⟨Nat.lt_trans later later', getElem?_of_mem_children looked he⟩

/-- What a node is worth depends only on what the outcomes are worth. -/
theorem advisedWorth_congr {first second : Nat → Except (Failure α) α}
    (h : ∀ advice, tree.advice id = .ok (some advice) →
      ∀ entry ∈ advice.outcomes, first entry.1 = second entry.1) :
    tree.advisedWorth reward first id = tree.advisedWorth reward second id := by
  rw [advisedWorth, advisedWorth]
  cases ha : tree.advice id with
  | error failure => rfl
  | ok advice? =>
    cases advice? with
    | none => rfl
    | some advice =>
      have terms : (advice.outcomes.mapM fun (id, outcome) => do
          return outcome.reach.getD Scalar.zero * (← first id) : Except (Failure α) (List α)) =
            advice.outcomes.mapM fun (id, outcome) => do
              return outcome.reach.getD Scalar.zero * (← second id) := by
        refine Attempt.mapM_congr fun entry he => ?_
        dsimp only
        rw [h advice ha entry he]
      show advice.worth reward first = advice.worth reward second
      rw [Advice.worth, terms, Advice.worth]

/-- With as many steps to go as there may be later nodes, one more changes nothing. -/
theorem Linked.worthWithin_succ (linked : tree.Linked) {bound : Nat} (here : id < tree.size)
    (enough : tree.size ≤ bound + id) :
    tree.worthWithin reward (bound + 1) id = tree.worthWithin reward bound id := by
  induction bound generalizing id with
  | zero => omega
  | succ bound ih =>
    refine advisedWorth_congr fun advice h entry he => ?_
    obtain ⟨later, there⟩ := linked.advice_later h entry he
    exact ih (lt_size there) (by omega)

/-- What each node is worth follows from what later ones are worth. -/
theorem Linked.worth_eq (linked : tree.Linked) (here : id < tree.size) :
    tree.worth reward id = tree.advisedWorth reward (tree.worth reward) id :=
  (linked.worthWithin_succ here (Nat.le_add_right _ _)).symm

/-- Without advice a node is worth nought. -/
theorem Linked.worth_of_none (linked : tree.Linked) (here : id < tree.size)
    (h : tree.advice id = .ok none) : tree.worth reward id = .ok Scalar.zero := by
  rw [linked.worth_eq here, advisedWorth, h]
  rfl

/-- With advice a node is worth what that is worth. -/
theorem Linked.worth_of_some (linked : tree.Linked) (here : id < tree.size)
    (h : tree.advice id = .ok (some advice)) :
    tree.worth reward id = advice.worth reward (tree.worth reward) := by
  rw [linked.worth_eq here, advisedWorth, h]
  rfl

/-- A node that advice leads to is in the table. -/
theorem Heeded.lt_size (heeded : tree.Heeded id) (linked : tree.Linked) : id < tree.size := by
  cases heeded with
  | root => exact tree.size_pos
  | outcome before advised after => exact Tree.lt_size (linked.advice_later advised _ after).2

/-- Where the worth of the root can be told, so can that of each node that
advice leads to. -/
theorem Heeded.worth_ok (heeded : tree.Heeded id) (linked : tree.Linked) {value : α}
    (h : tree.worth reward 0 = .ok value) : ∃ value, tree.worth reward id = .ok value := by
  induction heeded with
  | root => exact ⟨value, h⟩
  | outcome before advised after ih =>
    obtain ⟨above, ha⟩ := ih
    rw [linked.worth_of_some (before.lt_size linked) advised] at ha
    obtain ⟨-, terms, -, each, -⟩ := Advice.worth_eq_ok_iff.mp ha
    obtain ⟨term, -, below, hb, -⟩ := Attempt.exists_of_mem_left each after
    exact ⟨below, hb⟩

end Tree

end HorizonUct
