import HorizonUct.Settings

/-!
# Journals

A search keeps a journal of what happens on its way, as data. How an event is
told is in `HorizonUct.Journal.Text`. Elapsed times are no part of it, so equal
searches keep equal journals.
-/

namespace HorizonUct

/-- Something worth telling. -/
inductive Event (α : Type) where
  /-- A search begins. -/
  | searchBegun (settings : Settings α)
  /-- The time is used up. -/
  | timeUsedUp (limit rollouts : Nat)
  /-- A rollout was made. -/
  | rolloutMade (index : Nat) (bias total : α) (steps : Nat)
  /-- A rollout came to a node without children. -/
  | deadlockMet (node : Nat)
  /-- A draw lay above the sum of all probabilities. -/
  | drawBeyond (node : Nat) (draw sum : α)
  /-- A search is over. -/
  | searchEnded (estimate : α) (rollouts : Nat)
  /-- A greedy walk takes an action, after so many others. -/
  | actionFollowed (before : Nat) (label : String) (mean : α) (visits : Nat)
  /-- A tree was unrolled to a chain. -/
  | chainUnrolled (states transitions : Nat)
  /-- A search was appraised. -/
  | appraised (estimate value : α) (states : Nat)
deriving DecidableEq, Repr

/-- A journal, latest event first. -/
abbrev Journal (α : Type) := List (Event α)

end HorizonUct
