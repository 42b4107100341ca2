import HorizonUct.Mdp.Navigator

/-!
# Decision processes given state by state

The states are the naturals below the length of a table, whose entries list
the choices of each state, and these their outcomes, in order. A cursor stands
on one entry and is the navigator of the table.

A table may be used without having been checked: the cursor reports a state
that is not there. Nothing is said here about probabilities; whether those of
a choice make a distribution is settled when an outcome is drawn.
-/

namespace HorizonUct

/-- A possible consequence of a choice. -/
structure Outcome (α : Type) where
  /-- How probable it is. -/
  probability : α
  /-- The state that follows. -/
  target : Nat
deriving DecidableEq, Repr

/-- Something that can be done in a state. -/
structure Choice (α : Type) where
  /-- The label of the action. -/
  action : String
  /-- Its outcomes in order. -/
  outcomes : List (Outcome α)
deriving DecidableEq, Repr

/-- A decision process whose states are the indices of a table. -/
structure Mdp (α : Type) where
  /-- The initial states. -/
  starts : List Nat
  /-- The choices of each state; a state without any is a deadlock. -/
  states : Array (List (Choice α))
deriving DecidableEq, Repr

namespace Mdp

variable {α : Type}

/-- The first outcome of a choice that leaves a table of the given size. -/
def strayTarget? (count : Nat) (choice : Choice α) : Option (String × Nat) :=
  (choice.outcomes.find? fun o => count ≤ o.target).map fun o => (choice.action, o.target)

/-- Check that no state outside the table is named. Initial states come first,
then the outcomes in order. -/
def check (mdp : Mdp α) : Except (Failure α) Unit :=
  let count := mdp.states.size
  match mdp.starts.find? (count ≤ ·) with
  | some state => .error (.navigation (.unknownStart state count))
  | none =>
    let stray := mdp.states.toList.zipIdx.findSome? fun (choices, state) =>
      (choices.findSome? (strayTarget? count)).map fun (action, target) =>
        NavigationFault.unknownTarget state action target
    match stray with
    | some fault => .error (.navigation fault)
    | none => .ok ()

end Mdp

/-- A table and the choices of the state that is current in it. -/
structure Cursor (α : Type) where
  /-- The table, which never changes. -/
  mdp : Mdp α
  /-- The choices of the current state, if one has been made current. -/
  here : Option (List (Choice α))
deriving DecidableEq, Repr

namespace Cursor

variable {α : Type}

/-- A cursor that stands nowhere yet. -/
def ofMdp (mdp : Mdp α) : Cursor α := ⟨mdp, none⟩

/-- The choices of the current state. -/
def choices (cursor : Cursor α) : Except (Failure α) (List (Choice α)) :=
  match cursor.here with
  | some choices => .ok choices
  | none => .error (.navigation .nowhere)

/-- A choice of the current state. -/
def choice (cursor : Cursor α) (index : Nat) : Except (Failure α) (Choice α) := do
  let choices ← cursor.choices
  match choices[index]? with
  | some choice => return choice
  | none => throw (.navigation (.unknownChoice index choices.length))

/-- An outcome of a choice of the current state. -/
def outcome (cursor : Cursor α) (choice outcome : Nat) : Except (Failure α) (Outcome α) := do
  let choice ← cursor.choice choice
  match choice.outcomes[outcome]? with
  | some outcome => return outcome
  | none =>
    throw (.navigation (.unknownOutcome outcome choice.action choice.outcomes.length))

/-- Stand on a state of the table. Outside the table the cursor stays where it is. -/
def moveTo (state : Nat) (cursor : Cursor α) : Except (Failure α) Unit × Cursor α :=
  match cursor.mdp.states[state]? with
  | some choices => (.ok (), { cursor with here := some choices })
  | none => (.error (.navigation (.unknownState state cursor.mdp.states.size)), cursor)

instance : Navigator (Cursor α) Nat α where
  hasOneStart cursor := .ok (cursor.mdp.starts.length == 1)
  start cursor :=
    match cursor.mdp.starts.head? with
    | some state => .ok state
    | none => .error .ambiguousStart
  moveTo := moveTo
  choiceCount cursor := return (← cursor.choices).length
  choiceLabel cursor choice := return (← cursor.choice choice).action
  outcomeCount cursor choice := return (← cursor.choice choice).outcomes.length
  probability cursor choice outcome := return (← cursor.outcome choice outcome).probability
  target cursor choice outcome := return (← cursor.outcome choice outcome).target

/-- A move never changes the table. -/
@[simp]
theorem moveTo_mdp (state : Nat) (cursor : Cursor α) :
    (cursor.moveTo state).2.mdp = cursor.mdp := by
  unfold moveTo
  split <;> rfl

/-- A move succeeds exactly on the states of the table. -/
theorem moveTo_eq_ok_iff {state : Nat} {cursor : Cursor α} :
    (cursor.moveTo state).1 = .ok () ↔ state < cursor.mdp.states.size := by
  unfold moveTo
  split <;> rename_i h
  · simpa using (Array.getElem?_eq_some_iff.mp h).1
  · simpa using h

end Cursor

end HorizonUct
