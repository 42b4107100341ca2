import HorizonUct.Mdp.Rewards
import HorizonUct.Mdp.Table

/-!
# Problems

A problem is a decision process together with what its actions earn. An
earning names an action, perhaps the states in which it counts, and a value or
a constant. Constants are looked up when a reward is asked for, so an earning
that never counts may name one that is not defined.
-/

namespace HorizonUct

/-- What an earning is worth. -/
inductive Worth (α : Type) where
  /-- The given value. -/
  | value (value : α)
  /-- The value of a constant. -/
  | constant (name : String)
deriving DecidableEq, Repr

/-- The value of a worth under constants. -/
def Worth.evaluate {α : Type} (worth : Worth α) (constants : Constants α) : Except (Failure α) α :=
  match worth with
  | .value x => .ok x
  | .constant name => constants.value name

/-- What an action earns. -/
structure Earning (α : Type) where
  /-- The label of the action. -/
  action : String
  /-- The states in which the earning counts, all of them when absent. -/
  states : Option (List Nat)
  /-- What it is worth there. -/
  worth : Worth α
deriving DecidableEq, Repr

/-- Whether an earning counts in a state. -/
def Earning.covers {α : Type} (earning : Earning α) (state : Nat) : Bool :=
  match earning.states with
  | some states => states.contains state
  | none => true

/-- An earning as a rule of a reward scheme. -/
def Earning.rule {α : Type} (earning : Earning α) : RewardRule Nat α where
  action := earning.action
  applies state _ := .ok (earning.covers state)
  worth _ constants := earning.worth.evaluate constants

/-- A decision process with its rewards. -/
structure Problem (α : Type) where
  /-- The name of the problem, if it has one. -/
  name : Option String
  /-- The decision process. -/
  mdp : Mdp α
  /-- The constants that earnings may name. -/
  constants : Constants α
  /-- The earnings in order. -/
  earnings : List (Earning α)
deriving DecidableEq, Repr

/-- The reward scheme of a problem. -/
def Problem.scheme {α : Type} (problem : Problem α) : RewardScheme Nat α where
  name := problem.name
  rules := problem.earnings.map Earning.rule
  constants := problem.constants

end HorizonUct
