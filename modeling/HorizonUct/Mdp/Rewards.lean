import HorizonUct.Failure
import HorizonUct.Scalar

/-!
# Rewards

A reward scheme is a list of rules. A rule speaks about one action, says in
which states it applies and what the action is worth there. What an action
earns is the sum over the rules that apply. Whether a rule applies is asked of
every rule in turn, also of those about other actions, so a question without
an answer is never passed over.
-/

namespace HorizonUct

/-- Named values, each name once. -/
structure Constants (α : Type) where
  /-- The names and their values. -/
  entries : List (String × α)
deriving DecidableEq, Repr

namespace Constants

variable {α : Type}

/-- No constants. -/
def empty : Constants α := ⟨[]⟩

/-- Define a constant, or give it another value. -/
def insert (constants : Constants α) (name : String) (value : α) : Constants α :=
  ⟨(name, value) :: constants.entries.filter (·.1 != name)⟩

/-- Define constants from left to right; of a repeated name the last value stays. -/
def ofList (entries : List (String × α)) : Constants α :=
  entries.foldl (fun constants (name, value) => constants.insert name value) empty

/-- The value of a constant, if it is defined. -/
def get? (constants : Constants α) (name : String) : Option α :=
  (constants.entries.find? (·.1 == name)).map (·.2)

/-- The value of a constant, which must be defined. -/
def value (constants : Constants α) (name : String) : Except (Failure α) α :=
  match constants.get? name with
  | some value => .ok value
  | none => .error (.reward (.undefinedConstant name))

end Constants

/-- What an action is worth, and where. -/
structure RewardRule (S α : Type) where
  /-- The label of the action. -/
  action : String
  /-- Whether the rule applies in a state. -/
  applies : S → Constants α → Except (Failure α) Bool
  /-- What the action is worth in a state. -/
  worth : S → Constants α → Except (Failure α) α

/-- A reward scheme. -/
structure RewardScheme (S α : Type) where
  /-- The name of the scheme, if it has one. -/
  name : Option String
  /-- Its rules in order. -/
  rules : List (RewardRule S α)
  /-- The constants that its rules may name. -/
  constants : Constants α

namespace RewardScheme

variable {S α : Type} [Scalar α]

/-- A sum of rewards with what a rule adds to it. -/
def addRule (constants : Constants α) (state : S) (action : String) (sum : α)
    (rule : RewardRule S α) : Except (Failure α) α := do
  let applies ← rule.applies state constants
  if applies && rule.action == action then
    return sum + (← rule.worth state constants)
  else
    return sum

/-- What an action earns in a state: a sum from left to right, starting at nought. -/
def earned (scheme : RewardScheme S α) (state : S) (action : String) : Except (Failure α) α :=
  scheme.rules.foldlM (addRule scheme.constants state action) Scalar.zero

end RewardScheme

end HorizonUct
