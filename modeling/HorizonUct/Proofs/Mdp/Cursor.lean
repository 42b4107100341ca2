import HorizonUct.Mdp.Table
import HorizonUct.Proofs.Rollout.Growth

/-!
# What a cursor tells

A cursor that stands on a state of its table tells the choices and outcomes
that the table lists there, and nothing else. Every move leaves it with the
same table, and a move that succeeds makes it stand on the state it was told,
wherever it stood before.
-/

namespace HorizonUct

variable {α : Type} {mdp : Mdp α} {cursor : Cursor α} {state : Nat}

/-- The roles and probabilities of the children that a table gives to a node
which belongs to a state. -/
def Mdp.offspring (mdp : Mdp α) (state : Nat) : Role Nat → Option (List (Role Nat × Option α))
  | .decision _ =>
    mdp.states[state]?.map fun choices =>
      choices.zipIdx.map fun entry => (.chance entry.2 entry.1.action, none)
  | .chance index _ =>
    (mdp.states[state]?.bind (·[index]?)).map fun choice =>
      choice.outcomes.map fun outcome => (.decision outcome.target, some outcome.probability)

namespace Cursor

/-- A cursor of a table that stands on a state. -/
def StandsOn (mdp : Mdp α) (cursor : Cursor α) (state : Nat) : Prop :=
  cursor.mdp = mdp ∧ ∃ choices, mdp.states[state]? = some choices ∧ cursor.here = some choices

/-- Moves keep the table, and lead to the state that they are told. -/
theorem tracks (mdp : Mdp α) :
    Tracks (fun cursor : Cursor α => cursor.mdp = mdp) (StandsOn mdp) := by
  refine ⟨?_, ?_⟩
  · intro state before after result kept moved
    have same := moveTo_mdp state before
    have after_eq : (before.moveTo state).2 = after := congrArg Prod.snd moved
    rw [after_eq, kept] at same
    exact same
  · intro state before after kept moved
    have moved : before.moveTo state = (.ok (), after) := moved
    unfold moveTo at moved
    split at moved
    · next choices found =>
      cases moved
      rw [kept] at found
      exact ⟨kept, choices, found, rfl⟩
    · cases moved

/-- A cursor that stands on a state has the choices of it. -/
theorem StandsOn.choices (stands : StandsOn mdp cursor state) :
    ∃ choices, mdp.states[state]? = some choices ∧ cursor.choices = .ok choices := by
  obtain ⟨-, choices, found, here⟩ := stands
  exact ⟨choices, found, by rw [Cursor.choices, here]⟩

/-- A choice of the current state, by its place. -/
theorem choice_eq_ok_iff {choices : List (Choice α)} {index : Nat} {choice : Choice α}
    (all : cursor.choices = .ok choices) :
    cursor.choice index = .ok choice ↔ choices[index]? = some choice := by
  rw [Cursor.choice, all]
  dsimp only [bind, Except.bind]
  cases hc : choices[index]? with
  | none => exact ⟨nofun, nofun⟩
  | some found => exact ⟨fun h => congrArg some (Except.ok.inj h), fun h => by cases h; rfl⟩

/-- An outcome of a choice of the current state, by its place. -/
theorem outcome_eq_ok {index place : Nat} {choice : Choice α} {outcome : Outcome α}
    (hc : cursor.choice index = .ok choice) (ho : choice.outcomes[place]? = some outcome) :
    cursor.outcome index place = .ok outcome := by
  rw [Cursor.outcome, hc]
  dsimp only [bind, Except.bind]
  rw [ho]
  rfl

/-- How many choices there are. -/
theorem choiceCount_eq_ok {choices : List (Choice α)} (all : cursor.choices = .ok choices) :
    (Navigator.choiceCount cursor : Except (Failure α) Nat) = .ok choices.length := by
  show (do return (← cursor.choices).length : Except (Failure α) Nat) = _
  rw [all]
  rfl

/-- The label of a choice. -/
theorem choiceLabel_eq_ok {index : Nat} {choice : Choice α}
    (hc : cursor.choice index = .ok choice) :
    (Navigator.choiceLabel cursor index : Except (Failure α) String) = .ok choice.action := by
  show (do return (← cursor.choice index).action : Except (Failure α) String) = _
  rw [hc]
  rfl

/-- How many outcomes a choice has. -/
theorem outcomeCount_eq_ok_iff {index count : Nat} :
    (Navigator.outcomeCount cursor index : Except (Failure α) Nat) = .ok count ↔
      ∃ choice, cursor.choice index = .ok choice ∧ choice.outcomes.length = count := by
  show (do return (← cursor.choice index).outcomes.length : Except (Failure α) Nat) = _ ↔ _
  rw [Attempt.bind_eq_ok_iff]
  refine exists_congr fun choice => and_congr_right fun _ => ?_
  exact ⟨Except.ok.inj, congrArg Except.ok⟩

/-- The probability and the target of an outcome. -/
theorem answers_eq_ok {index place : Nat} {outcome : Outcome α}
    (ho : cursor.outcome index place = .ok outcome) :
    (Navigator.probability cursor index place : Except (Failure α) α) = .ok outcome.probability ∧
      (Navigator.target cursor index place : Except (Failure α) Nat) = .ok outcome.target := by
  constructor
  · show (do return (← cursor.outcome index place).probability : Except (Failure α) α) = _
    rw [ho]
    rfl
  · show (do return (← cursor.outcome index place).target : Except (Failure α) Nat) = _
    rw [ho]
    rfl

/-- A cursor starts in the first of the initial states. -/
theorem start_eq (cursor : Cursor α) : (Navigator.start cursor : Except (Failure α) Nat) =
    cursor.mdp.starts.head?.elim (.error .ambiguousStart) .ok := by
  simp only [Navigator.start]
  cases cursor.mdp.starts.head? <;> rfl

/-- Where a cursor starts is an initial state of its table. -/
theorem mem_starts {root : Nat}
    (start : (Navigator.start cursor : Except (Failure α) Nat) = .ok root) :
    root ∈ cursor.mdp.starts := by
  rw [start_eq] at start
  cases first : cursor.mdp.starts.head? with
  | none =>
    rw [first] at start
    cases start
  | some state =>
    rw [first] at start
    rw [← Except.ok.inj start]
    exact List.mem_of_head? first

variable [Scalar α]

/-- At a state a cursor tells an action for each choice. -/
theorem offspring_decision {choices : List (Choice α)} (all : cursor.choices = .ok choices)
    (own : Nat) : (Role.decision own).offspring cursor =
      .ok (choices.zipIdx.map fun entry => Node.chance entry.2 entry.1.action) := by
  have child : ∀ {place : Nat} {choice : Choice α}, choices[place]? = some choice →
      (do return .chance place (← Navigator.choiceLabel cursor place) :
        Except (Failure α) (Node Nat α)) = .ok (.chance place choice.action) := by
    intro place choice hp
    rw [choiceLabel_eq_ok ((choice_eq_ok_iff all).mpr hp)]
    rfl
  rw [Role.offspring, choiceCount_eq_ok all]
  exact Attempt.mapM_range_eq_ok child

/-- At an action a cursor tells a state for each outcome. -/
theorem offspring_chance {index : Nat} {choice : Choice α} (hc : cursor.choice index = .ok choice)
    (label : String) : (Role.chance index label).offspring cursor =
      .ok (choice.outcomes.map fun outcome =>
        Node.decision outcome.target (some outcome.probability)) := by
  have child : ∀ {place : Nat} {entry : Outcome α}, choice.outcomes[place]? = some entry →
      (do
        let probability ← Navigator.probability cursor index place
        let target ← Navigator.target cursor index place
        return .decision target (some probability) : Except (Failure α) (Node Nat α)) =
        .ok (.decision entry.target (some entry.probability)) := by
    intro place entry hp
    obtain ⟨probability, target⟩ := answers_eq_ok (outcome_eq_ok hc hp)
    rw [probability, target]
    rfl
  have plain := congrArg
    (List.map fun entry : Outcome α => Node.decision entry.target (some entry.probability))
    (List.zipIdx_map_fst 0 choice.outcomes)
  rw [List.map_map] at plain
  rw [← plain, Role.offspring, outcomeCount_eq_ok_iff.mpr ⟨choice, hc, rfl⟩]
  exact Attempt.mapM_range_eq_ok child

/-- The children that a cursor tells are those of its table, all of them fresh. -/
theorem StandsOn.offspring {role : Role Nat} {children : List (Node Nat α)}
    (stands : StandsOn mdp cursor state) (told : role.offspring cursor = .ok children) :
    ∃ specs, mdp.offspring state role = some specs ∧
      children = specs.map fun spec => Node.fresh spec.1 spec.2 := by
  obtain ⟨choices, found, all⟩ := stands.choices
  cases role with
  | decision own =>
    rw [offspring_decision all] at told
    rw [Mdp.offspring, found, ← Except.ok.inj told]
    exact ⟨_, rfl, by rw [List.map_map]; rfl⟩
  | chance index label =>
    obtain ⟨_, counted, -⟩ := Attempt.bind_eq_ok_iff.mp told
    obtain ⟨choice, hc, -⟩ := outcomeCount_eq_ok_iff.mp counted
    rw [offspring_chance hc] at told
    rw [Mdp.offspring, found, Option.bind_some, (choice_eq_ok_iff all).mp hc, ← Except.ok.inj told]
    exact ⟨_, rfl, by rw [List.map_map]; rfl⟩

end Cursor

end HorizonUct
