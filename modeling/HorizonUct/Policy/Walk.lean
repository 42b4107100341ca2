import HorizonUct.Journal
import HorizonUct.Tree.Ranking

/-!
# Greedy walks

What a searched tree advises can be followed from node to node by always going
to the favourite child, through states and actions alike, until a node has no
visited child. A walk is read off the tree and adds nothing to it.
-/

namespace HorizonUct

/-- A node on a walk. -/
structure Stop (S α : Type) where
  /-- The index of the node. -/
  node : Nat
  /-- Its state, if it stands for one. -/
  state : Option S
  /-- Its label, if it stands for an action. -/
  action : Option String
  /-- Its mean return. -/
  mean : α
  /-- Its visits. -/
  visits : Nat
deriving DecidableEq, Repr

/-- A node as a stop. -/
def Node.stop {S α : Type} (node : Node S α) (id : Nat) : Stop S α :=
  ⟨id, node.role.state?, node.role.label?, node.mean, node.visits⟩

/-- A greedy walk. -/
structure Walk (S α : Type) where
  /-- The nodes in order. -/
  stops : List (Stop S α)
  /-- The node at which the walk ends. -/
  last : Nat
deriving DecidableEq, Repr

namespace Walk

variable {S α : Type}

/-- The labels of the actions on a walk. -/
def actions (walk : Walk S α) : List String := walk.stops.filterMap (·.action)

/-- The states on a walk. -/
def states (walk : Walk S α) : List S := walk.stops.filterMap (·.state)

end Walk

namespace Tree

variable {S α : Type}

/-- The walk from a node, within a given number of moves. -/
def walkWithin [Scalar α] (tree : Tree S α) : Nat → Nat → Except (Failure α) (Walk S α)
  | bound, id =>
    match tree.node id with
    | .error failure => .error failure
    | .ok node =>
      match tree.favourite id, bound with
      | .error failure, _ => .error failure
      | .ok none, _ => .ok ⟨[node.stop id], id⟩
      | .ok (some _), 0 => .error .endlessWalk
      | .ok (some next), bound + 1 =>
        match tree.walkWithin bound next with
        | .error failure => .error failure
        | .ok rest => .ok ⟨node.stop id :: rest.stops, rest.last⟩

/-- The walk from a node. Children come after their parent, so it makes fewer
moves than the tree has nodes. -/
def walkFrom [Scalar α] (tree : Tree S α) (start : Nat) : Except (Failure α) (Walk S α) :=
  tree.walkWithin tree.size start

/-- What a walk enters in the journal: its actions in order. -/
def walkEvents (tree : Tree S α) (walk : Walk S α) : Except (Failure α) (List (Event α)) :=
  walk.stops.filterMapM fun stop => do
    match stop.action with
    | some label =>
      return some (.actionFollowed (← tree.actionsBefore stop.node) label stop.mean stop.visits)
    | none => return none

end Tree

end HorizonUct
