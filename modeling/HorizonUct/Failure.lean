/-!
# What can go wrong

Each cause is a constructor with the data that its report quotes. A decision
process or a reward rule of the caller's own may give a cause in its own
words. The report texts are in `HorizonUct.Failure.Report`.
-/

namespace HorizonUct

/-- Why a question about a decision process has no answer. -/
inductive NavigationFault where
  /-- A question about choices before any state was made current. -/
  | nowhere
  /-- A state that the process does not have. -/
  | unknownState (state count : Nat)
  /-- An initial state that the process does not have. -/
  | unknownStart (state count : Nat)
  /-- An outcome that leads to a state that the process does not have. -/
  | unknownTarget (state : Nat) (action : String) (target : Nat)
  /-- A choice beyond those of the current state. -/
  | unknownChoice (choice available : Nat)
  /-- An outcome beyond those of a choice. -/
  | unknownOutcome (outcome : Nat) (action : String) (available : Nat)
  /-- A node for an action whose state cannot be told. -/
  | stateless (node : Nat)
  /-- A tree whose root is no state. -/
  | chanceRoot
  /-- A cause in the words of the process. -/
  | other (text : String)
deriving DecidableEq, Repr

/-- Why a reward could not be evaluated. -/
inductive RewardFault where
  /-- A constant that is not defined. -/
  | undefinedConstant (name : String)
  /-- A cause in the words of the reward rule. -/
  | other (text : String)
deriving DecidableEq, Repr

/-- Why a setting is refused. -/
inductive SettingFault (α : Type) where
  /-- The horizon is nought. -/
  | horizon
  /-- The number of rollouts is nought. -/
  | budget
  /-- The tolerance is not a positive number. -/
  | tolerance (value : α)
  /-- The fixed bias is not finite. -/
  | bias (value : α)
  /-- A text that names no bias. -/
  | unknownBias (text : String)
  /-- A list of draws without any. -/
  | noDraws
  /-- A cause in the words of the caller. -/
  | other (text : String)
deriving Repr

/-- Why an operation has no result. -/
inductive Failure (α : Type) where
  /-- There is no initial state, or more than one. -/
  | ambiguousStart
  /-- A question about the decision process has no answer. -/
  | navigation (fault : NavigationFault)
  /-- The outcome probabilities at a node do not make a distribution. -/
  | notADistribution (node : Nat) (sum : α)
  /-- A reward could not be evaluated. -/
  | reward (fault : RewardFault)
  /-- A setting is refused. -/
  | setting (fault : SettingFault α)
  /-- A file could not be read as text. -/
  | unreadable
  /-- A document is not what it should be. -/
  | malformedDocument
  /-- A table was asked for an entry that it does not hold. -/
  | missingEntry (index : Nat)
  /-- A way through a tree came back to where it had been. -/
  | endlessWalk
deriving Repr

end HorizonUct
